import CommServer.Incl
import CommServer.Text.Cut

/-!
# Message — the format `响应码$Tuxedo交易码$数据包`

The abstract side of the protocol comment of `comm_server.c`: a response code, a Tuxedo transaction
code and a data packet.  The first two are free of the separator by construction, which is what makes
the format readable; the data packet may contain it.

* `Message.text`   : the message as it stands on the wire;
* `Message.ofText` : reading it back, by splitting at the first two separators.
-/

namespace CommServer
namespace Protocol

open Text CLib

structure Message where
  code : List Byte
  tranCode : List Byte
  data : List Byte
  code_free : dollar ∉ code
  tranCode_free : dollar ∉ tranCode
  deriving DecidableEq

namespace Message

def text (m : Message) : List Byte :=
  m.code ++ dollar :: (m.tranCode ++ dollar :: m.data)

/-- The message that a text stands for, if it has two separators. -/
def ofText (s : List Byte) : Option Message :=
  match h₁ : cut dollar s with
  | none => none
  | some (code, body) =>
      match h₂ : cut dollar body with
      | none => none
      | some (tranCode, data) =>
          some
            { code := code
              tranCode := tranCode
              data := data
              code_free := (eq_of_cut h₁).2
              tranCode_free := (eq_of_cut h₂).2 }

theorem text_of_ofText {s : List Byte} {m : Message} (h : ofText s = some m) : s = m.text := by
  unfold ofText at h
  split at h
  case h_1 => simp at h
  case h_2 code body h₁ =>
    split at h
    case h_1 => simp at h
    case h_2 tranCode data h₂ =>
      have hs : s = code ++ dollar :: body := (eq_of_cut h₁).1
      have hbody : body = tranCode ++ dollar :: data := (eq_of_cut h₂).1
      rw [← Option.some.inj h]
      exact hbody ▸ hs

@[simp] theorem ofText_text (m : Message) : ofText m.text = some m := by
  have h₁ : cut dollar m.text = some (m.code, m.tranCode ++ dollar :: m.data) :=
    cut_append m.code_free _
  have h₂ : cut dollar (m.tranCode ++ dollar :: m.data) = some (m.tranCode, m.data) :=
    cut_append m.tranCode_free _
  unfold ofText
  split
  case h_1 hnone => simp [h₁] at hnone
  case h_2 code body hsome =>
    have hcut : m.code = code ∧ m.tranCode ++ dollar :: m.data = body := by
      simpa [h₁] using hsome
    rcases hcut with ⟨rfl, rfl⟩
    split
    case h_1 hnone => simp [h₂] at hnone
    case h_2 tranCode data hsome' =>
      have hcut' : m.tranCode = tranCode ∧ m.data = data := by
        simpa [h₂] using hsome'
      rcases hcut' with ⟨rfl, rfl⟩
      rfl

/-- Writing and reading are inverse: a text is read as `m` exactly when it is `m` written down. -/
theorem ofText_eq_some_iff {s : List Byte} {m : Message} : ofText s = some m ↔ s = m.text := by
  constructor
  · intro h
    exact text_of_ofText h
  · rintro rfl
    exact ofText_text m

end Message

end Protocol
end CommServer

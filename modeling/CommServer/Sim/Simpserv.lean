import CommServer.Src.ProcessParseSpec

/-!
# Simpserv — the test service `sim/tux_server/simpserv.c`

`TOUPPER` turns its data into upper case and returns them with `TPSUCCESS`.  The data are those of a
`STRING` buffer, so `len` counts the terminator, on the way back too.

* `toupperService`   : the service, as a connection child sees it;
* `toupperSystem`    : how a Tuxedo system with this one service answers calls;
* `toupper_answers`  : the service is such a system.
-/

namespace CommServer
namespace Sim

open CLib

/-- `toupper`, in the locale `C`. -/
def toupper (c : Byte) : Byte :=
  if 0x61 ≤ c ∧ c ≤ 0x7a then c - 0x20 else c

/-- The loop of `TOUPPER`, which leaves the last of `len` bytes alone. -/
def toupperLoop (data : List Byte) (len : Nat) : List Byte :=
  data.mapIdx fun i c => if i + 1 < len then toupper c else c

/-- `TOUPPER(rqst)`, called with a string. -/
def toupperService (data : List Byte) : TuxOutcome :=
  TuxOutcome.returning 0 (Int64.ofNat (data.length + 1))
    (toupperLoop (data ++ [0]) (data.length + 1))

/-- `"TOUPPER"`. -/
def toupperName : List Byte :=
  [0x54, 0x4f, 0x55, 0x50, 0x50, 0x45, 0x52]

/-- The data come back in upper case, and there is no other service. -/
def toupperSystem (service data : List Byte) (o : TuxOutcome) : Prop :=
  service = toupperName ∧ o.Answered ∧ 0 ≤ o.recvlen.toInt ∧ o.answerData = data.map toupper

instance (service data : List Byte) (o : TuxOutcome) : Decidable (toupperSystem service data o) := by
  unfold toupperSystem
  infer_instance

theorem toupper_ne_zero {c : Byte} (h : c ≠ 0) : toupper c ≠ 0 := by
  unfold toupper
  split
  case isTrue hlower =>
    intro hzero
    have hc : c = 0x20 := by
      have hsub := congrArg (· + 0x20) hzero
      simpa using hsub
    rw [hc] at hlower
    exact absurd hlower.1 (by decide)
  case isFalse => exact h

theorem toupperLoop_string (data : List Byte) :
    toupperLoop (data ++ [0]) (data.length + 1) = data.map toupper ++ [0] := by
  apply List.ext_getElem
  · simp [toupperLoop]
  · intro i hi hi'
    by_cases hlast : i < data.length
    · simp [toupperLoop, hlast]
    · simp [toupperLoop, List.getElem_append, hlast]

/-- `TOUPPER` answers every request that a child hands it in this way. -/
theorem toupper_answers {data : List Byte} (hclean : (0 : Byte) ∉ data)
    (hshort : data.length ≤ desStrLen) : toupperSystem toupperName data (toupperService data) := by
  have hcap : desStrLen = 2049 := rfl
  have hmax : maxbufLen = 10240 := rfl
  have hrecvlen : (toupperService data).recvlen.toInt = (data.length + 1 : Nat) :=
    Int64.toInt_ofNat_of_lt (by omega)
  have hans : (toupperService data).Answered := by
    refine ⟨⟨show (0 : Int) ≠ eFail by decide, rfl, rfl⟩, ?_⟩
    show (toupperService data).recvlen.toInt ≤ (maxbufLen : Int) - 100
    omega
  have hupper : (0 : Byte) ∉ data.map toupper := by
    intro hmem
    rcases List.mem_map.1 hmem with ⟨c, hc, hzero⟩
    exact toupper_ne_zero (ne_of_mem_of_not_mem hc hclean) hzero
  have hreply : (toupperService data).reply.str = data.map toupper := by
    show cstr (toupperLoop (data ++ [0]) (data.length + 1) ++ List.replicate maxbufLen 0) = _
    rw [toupperLoop_string, List.append_assoc, List.singleton_append, cstr_append_zero hupper]
  refine ⟨rfl, hans, by omega, ?_⟩
  rw [TuxOutcome.answerData, if_pos hans, hreply, hrecvlen]
  exact List.take_of_length_le (by simp)

end Sim
end CommServer

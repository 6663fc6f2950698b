import CommServer.Src.ProcessParseSpec

/-!
# Request — what `process_parse` hands on of a request received in full

* `forwardedWhole_iff`     : the data packet is forwarded whole exactly when it is at most
  2049 bytes long;
* `calledByName_iff`       : the service called is the service named exactly when the name is not
  blank and nothing but blanks is cut off behind its 63rd byte.
-/

namespace CommServer
namespace Exchange

open CLib Text

/-! ## The data packet -/

/-- The requests `f₁$f₂$f₃` and `f₁$f₂$f₃$rest`. -/
def requestText (f₁ f₂ f₃ : List Byte) : Option (List Byte) → List Byte
  | none => f₁ ++ dollar :: (f₂ ++ dollar :: f₃)
  | some rest => f₁ ++ dollar :: (f₂ ++ dollar :: (f₃ ++ dollar :: rest))

/-- If Tuxedo is called, it is with the whole packet. -/
def ForwardedWhole (run : ParseRun) (packet : List Byte) : Prop :=
  ∀ req, run.request = some req → req.requestData.str = packet

theorem field_requestText {f₁ f₂ f₃ : List Byte} (h₁ : dollar ∉ f₁) (h₂ : dollar ∉ f₂)
    (h₃ : dollar ∉ f₃) (rest : Option (List Byte)) :
    field [dollar] (requestText f₁ f₂ f₃ rest) 2 = f₃ := by
  cases rest with
  | none => rw [requestText, field_succ h₁, field_succ h₂, field_self h₃]
  | some rest => rw [requestText, field_succ h₁, field_succ h₂, field_zero h₃]

section DataPacket

variable {cfg : CommSvrSocket} {rx : Reception} {f₁ f₂ f₃ : List Byte} {rest : Option (List Byte)}

/-- What is forwarded of the data packet: as much as fits `des_str`. -/
theorem requestData_of_delivered (o : TuxOutcome) (tx : List SendResult) (h₁ : dollar ∉ f₁)
    (h₂ : dollar ∉ f₂) (h₃ : dollar ∉ f₃) (hmsg : (0 : Byte) ∉ requestText f₁ f₂ f₃ rest)
    (hlen : (requestText f₁ f₂ f₃ rest).length < maxbufLen)
    (h : Delivered cfg rx (requestText f₁ f₂ f₃ rest)) :
    ∃ req, (processParse cfg rx o tx).request = some req ∧
      req.requestData.str = f₃.take desStrLen := by
  rcases h.called hmsg hlen o tx with ⟨req, hreq, hasks⟩
  refine ⟨req, hreq, ?_⟩
  rw [hasks.requestData, field_requestText h₁ h₂ h₃]

/-- The data packet is forwarded whole exactly when the static array of `get_str` holds it. -/
theorem forwardedWhole_iff (o : TuxOutcome) (tx : List SendResult) (h₁ : dollar ∉ f₁)
    (h₂ : dollar ∉ f₂) (h₃ : dollar ∉ f₃) (hmsg : (0 : Byte) ∉ requestText f₁ f₂ f₃ rest)
    (hlen : (requestText f₁ f₂ f₃ rest).length < maxbufLen)
    (h : Delivered cfg rx (requestText f₁ f₂ f₃ rest)) :
    ForwardedWhole (processParse cfg rx o tx) f₃ ↔ f₃.length ≤ desStrLen := by
  rcases requestData_of_delivered o tx h₁ h₂ h₃ hmsg hlen h with ⟨req, hreq, hdata⟩
  constructor
  · intro hwhole
    have hcut : f₃.take desStrLen = f₃ := hdata.symm.trans (hwhole req hreq)
    exact (List.take_eq_self_iff f₃).1 hcut
  · intro hle req' hreq'
    have hsame : req = req' := Option.some.inj (hreq.symm.trans hreq')
    rw [← hsame, hdata, List.take_of_length_le hle]

end DataPacket

/-- The packet of the simulator's request is short. -/
theorem forwardedWhole_sample :
    (ForwardedWhole (processParse CommSvrSocket.shipped
        (Reception.atOnce (requestText [0x39] [0x53] [0x61, 0x62] none)) (.returning 0 0 []) [])
        [0x61, 0x62] ↔ [0x61, 0x62].length ≤ desStrLen) :=
  forwardedWhole_iff (.returning 0 0 []) [] (by decide) (by decide) (by decide) (by decide)
    (by decide) (delivered_atOnce (by decide) (by decide) (by decide))

/-- A packet of 2050 bytes in a message of 2054: its last byte is not forwarded. -/
theorem long_packet_cut :
    ¬ ∀ (cfg : CommSvrSocket) (rx : Reception) (o : TuxOutcome) (tx : List SendResult)
      (f₁ f₂ f₃ : List Byte) (rest : Option (List Byte)), dollar ∉ f₁ → dollar ∉ f₂ → dollar ∉ f₃ →
      (0 : Byte) ∉ requestText f₁ f₂ f₃ rest → (requestText f₁ f₂ f₃ rest).length < maxbufLen →
      Delivered cfg rx (requestText f₁ f₂ f₃ rest) →
      ForwardedWhole (processParse cfg rx o tx) f₃ := by
  intro h
  -- Only the length and the letter of the packet are used, so it is not spelled out.
  obtain ⟨f₃, hlen₃, hall⟩ : ∃ f₃ : List Byte, f₃.length = 2050 ∧ ∀ c ∈ f₃, c = 0x61 :=
    ⟨List.replicate 2050 0x61, List.length_replicate, fun _ => List.eq_of_mem_replicate⟩
  have hlength : (requestText [0x39] [0x53] f₃ none).length = 2054 := by
    simp only [requestText, List.length_append, List.length_cons, List.length_nil, hlen₃]
  have hfree : dollar ∉ f₃ := fun hmem => absurd (hall _ hmem) (by decide)
  have hzero : (0 : Byte) ∉ f₃ := fun hmem => absurd (hall _ hmem) (by decide)
  have hmsg : (0 : Byte) ∉ requestText [0x39] [0x53] f₃ none := by
    simp [requestText, dollar, hzero]
  have hlen : (requestText [0x39] [0x53] f₃ none).length < maxbufLen := by
    rw [hlength]
    decide
  have hrx : Delivered CommSvrSocket.shipped
      (Reception.atOnce (requestText [0x39] [0x53] f₃ none))
      (requestText [0x39] [0x53] f₃ none) :=
    delivered_atOnce (by decide) (by rw [hlength]; decide) hlen
  obtain ⟨req, hreq, hdata⟩ := requestData_of_delivered (.returning 0 0 []) [] (by decide)
    (by decide) hfree hmsg hlen hrx
  have hwhole := h _ _ (.returning 0 0 []) [] [0x39] [0x53] f₃ none (by decide) (by decide) hfree
    hmsg hlen hrx req hreq
  have hcut := congrArg List.length (hdata.symm.trans hwhole)
  rw [List.length_take, hlen₃] at hcut
  exact absurd hcut (by decide)

/-! ## The service name -/

/-- If Tuxedo is called, it is the service named, without the blanks around the name. -/
def CalledByName (run : ParseRun) (name : List Byte) : Prop :=
  ∀ req, run.request = some req →
    req.tranCode.str = trim isBlank name ∧ req.tranCode.str ≠ []

section ServiceName

variable {cfg : CommSvrSocket} {rx : Reception} {msg f₂ : List Byte}

/-- What is called: the first 63 bytes of the field, trimmed. -/
theorem tranCode_of_delivered (o : TuxOutcome) (tx : List SendResult) (hmsg : (0 : Byte) ∉ msg)
    (hlen : msg.length < maxbufLen) (hf : (msg.splitOn dollar)[1]? = some f₂)
    (h : Delivered cfg rx msg) :
    ∃ req, (processParse cfg rx o tx).request = some req ∧
      req.tranCode.str = trim isBlank (f₂.take 63) := by
  rcases h.called hmsg hlen o tx with ⟨req, hreq, hasks⟩
  refine ⟨req, hreq, ?_⟩
  rw [hasks.tranCode, field_eq_of_getElem? hf]

/-- The service called is the service named exactly when the name is not blank and the 63-byte cut,
which comes before the trims, cuts off nothing but blanks. -/
theorem calledByName_iff (o : TuxOutcome) (tx : List SendResult) (hmsg : (0 : Byte) ∉ msg)
    (hlen : msg.length < maxbufLen) (hf : (msg.splitOn dollar)[1]? = some f₂)
    (h : Delivered cfg rx msg) :
    CalledByName (processParse cfg rx o tx) f₂ ↔
      (∃ c ∈ f₂, ¬ isBlank c) ∧ ∀ c ∈ f₂.drop 63, isBlank c := by
  rcases tranCode_of_delivered o tx hmsg hlen hf h with ⟨req, hreq, hname⟩
  -- The name called is the core of the cut field.
  rw [← trim_take_eq_iff f₂ 63]
  constructor
  · intro hcalled
    rcases hcalled req hreq with ⟨heq, hne⟩
    exact ⟨hname.symm.trans heq, heq ▸ hne⟩
  · rintro ⟨hcut, hne⟩ req' hreq'
    have hsame : req = req' := Option.some.inj (hreq.symm.trans hreq')
    rw [← hsame, hname, hcut]
    exact ⟨rfl, hne⟩

end ServiceName

/-- The name `TOUPPER` of the simulator's request fits. -/
theorem calledByName_sample :
    (CalledByName (processParse CommSvrSocket.shipped (Reception.atOnce sampleRequest)
        (.returning 0 0 []) []) [0x54, 0x4f, 0x55, 0x50, 0x50, 0x45, 0x52] ↔
      (∃ c ∈ [0x54, 0x4f, 0x55, 0x50, 0x50, 0x45, 0x52], ¬ isBlank c) ∧
        ∀ c ∈ [0x54, 0x4f, 0x55, 0x50, 0x50, 0x45, 0x52].drop 63, isBlank c) :=
  calledByName_iff (.returning 0 0 []) [] (by decide) (by decide) (by decide)
    delivered_sampleRequest

/-- 63 blanks and the name `TOUPPER`: Tuxedo is called with no name at all. -/
def paddedRequest : List Byte :=
  0x39 :: dollar :: (List.replicate 63 0x20 ++ [0x54, 0x4f, 0x55, 0x50, 0x50, 0x45, 0x52])

theorem padded_name_cut :
    ¬ ∀ (cfg : CommSvrSocket) (rx : Reception) (o : TuxOutcome) (tx : List SendResult)
      (msg f₂ : List Byte), (0 : Byte) ∉ msg → msg.length < maxbufLen →
      (msg.splitOn dollar)[1]? = some f₂ → f₂.length ≤ 2048 → Delivered cfg rx msg →
      CalledByName (processParse cfg rx o tx) f₂ := by
  intro h
  have hrx : Delivered CommSvrSocket.shipped (Reception.atOnce paddedRequest) paddedRequest :=
    delivered_atOnce (by decide) (by decide) (by decide)
  have hf : (paddedRequest.splitOn dollar)[1]? = some (paddedRequest.drop 2) := by decide
  obtain ⟨req, hreq, hname⟩ := tranCode_of_delivered (.returning 0 0 []) [] (by decide)
    (by decide) hf hrx
  -- The 63 bytes that are kept are the blanks in front of the name.
  have hempty : trim isBlank ((paddedRequest.drop 2).take 63) = [] := by decide
  have hcalled := h _ _ (.returning 0 0 []) [] paddedRequest (paddedRequest.drop 2) (by decide)
    (by decide) hf (by decide) hrx req hreq
  exact hcalled.2 (hname.trans hempty)

end Exchange
end CommServer

import CommServer.Incl
import CommServer.LibSrc.Config

/-!
# CommSvrCfg — `get_comm_svr_cfg` and the environment string of `do_process`

* `getCommSvrCfg` : the four lookups, each through `value`, and the fields they fill;
* `doProcessCfg`  : the part of `do_process` that reads the configuration.

What the lookups answer decides everything: `cfgText key file` is the string that the one for `key`
leaves in `value`, and `getCommSvrCfg_spec` computes the result from these four strings.
-/

namespace CommServer

open CLib Text

/-! ## The functions -/

/-- `get_cfg_value(cfg_path, name, value)`: the return value, and `value` with what was stored. -/
def cfgValue (cfg : Option (List Byte)) (name : List Byte) (value : Buf 256) :
    Option (Int × Buf 256) := do
  let (ret, stored) ← getCfgValue cfg (name ++ [0])
  match stored with
  | none => return (ret, value)
  | some text =>
      -- `sscanf` does not know where `value` ends.
      let value ← value.blit 0 (text ++ [0])
      return (ret, value)

/-- `get_comm_svr_cfg(cfg_path, p)`, where `cfg` is the content of the file. -/
def getCommSvrCfg (cfg : Option (List Byte)) (p : CommSvrSocket) :
    Option (Int × CommSvrSocket) := do
  let sComm := CommSvrSocket.zeroed
  let (ret, value) ← cfgValue cfg (ascii "COMM_SVR_PORT") (Buf.zeroed 256)
  if ret ≠ eOk then
    return (eFail, p)
  let sComm := { sComm with commSvrPort := UInt16.ofInt (atoi value.bytes) }
  let (ret, value) ← cfgValue cfg (ascii "WATER_IP") (Buf.zeroed 256)
  if ret ≠ eOk then
    return (eFail, p)
  let sComm := { sComm with waterIp := snprintf sComm.waterIp value.str }
  let (ret, value) ← cfgValue cfg (ascii "WATER_PORT") (Buf.zeroed 256)
  if ret ≠ eOk then
    return (eFail, p)
  let sComm := { sComm with waterPort := snprintf sComm.waterPort value.str }
  let (ret, value) ← cfgValue cfg (ascii "WATER_TIMEOUT") (Buf.zeroed 256)
  if ret ≠ eOk then
    return (eFail, p)
  let sComm := { sComm with waterTimeout := atoi value.bytes }
  -- `memcpy(p, &s_comm, sizeof(struct comm_svr_socket))`.
  return (eOk, sComm)

/-- `tux_envstr` as `do_process` fills it. -/
def withEnvstr (svr : CommSvrSocket) : Option CommSvrSocket := do
  let envstr := snprintf svr.tuxEnvstr
    (ascii "WSNADDR=//" ++ svr.waterIp.str ++ ascii ":" ++ svr.waterPort.str)
  let envstr ← bclTrimall envstr
  return { svr with tuxEnvstr := envstr }

/-- `do_process` up to its listening socket: `none` inside for `exit(-1)`. -/
def doProcessCfg (cfg : Option (List Byte)) : Option (Option CommSvrSocket) := do
  let (ret, svr) ← getCommSvrCfg cfg CommSvrSocket.zeroed
  if ret ≠ eOk then
    return none
  let svr ← withEnvstr svr
  return some svr

/-! ## What a lookup leaves in `value` -/

/-- The string in `value` after a successful lookup: it stays empty when nothing is stored. -/
def cfgText (key file : List Byte) : Option (List Byte) :=
  (cfgFind key (cfgPieces file)).map (·.getD [])

/-- `value` takes the string. -/
def CfgFits (s : List Byte) : Prop :=
  s.length < 256

instance (s : List Byte) : Decidable (CfgFits s) :=
  inferInstanceAs (Decidable (s.length < 256))

section Lookups

variable {key file s : List Byte}

/-- A value has no white space in it, and no NUL. -/
theorem cfgText_letters (h : cfgText key file = some s) : ∀ c ∈ s, isSpace c = false ∧ c ≠ 0 := by
  rcases Option.map_eq_some_iff.1 h with ⟨o, hfind, rfl⟩
  rcases List.exists_of_findSome?_eq_some hfind with ⟨piece, -, hhit⟩
  rcases o with _ | v
  · simp
  · -- The value is a word of the piece as it stands in `buf`.
    have hword : v ∈ words isSpace (trim isBlank (cstr piece)) := by
      simp only [hit] at hhit
      split_ifs at hhit
      exact List.mem_of_getElem? (Option.some.inj hhit)
    have hletters := (of_mem_words hword).2
    intro c hc
    have hmem : c ∈ cstr piece := by
      rcases exists_eq_append_trim isBlank (cstr piece) with ⟨l, t, hs, -, -⟩
      rw [hs]
      simp [(hletters c hc).2]
    exact ⟨(hletters c hc).1, ne_of_mem_of_not_mem hmem (zero_not_mem_cstr piece)⟩

theorem zero_not_mem_cfgText (h : cfgText key file = some s) : (0 : Byte) ∉ s :=
  fun hmem => (cfgText_letters h 0 hmem).2 rfl

/-- `atoi` reads up to the terminator. -/
theorem atoi_str {n : Nat} (b : Buf n) : atoi b.bytes = atoi b.str := by
  simp only [atoi, Buf.str, cstr_eq_self (zero_not_mem_cstr b.bytes)]

theorem cfgValue_none (hkey : key ≠ []) (hclean : (0 : Byte) ∉ key)
    (h : cfgText key file = none) (value : Buf 256) :
    cfgValue (some file) key value = some (eFail, value) := by
  have hfind := Option.map_eq_none_iff.1 h
  simp [cfgValue, getCfgValue_spec hkey hclean, hfind, cfgAnswer]

/-- A string that fits is in `value`, and one that does not overruns it. -/
theorem cfgValue_some (hkey : key ≠ []) (hclean : (0 : Byte) ∉ key)
    (h : cfgText key file = some s) :
    (CfgFits s → ∃ b : Buf 256, cfgValue (some file) key (Buf.zeroed 256) = some (eOk, b) ∧
      b.str = s) ∧ (¬ CfgFits s → cfgValue (some file) key (Buf.zeroed 256) = none) := by
  rcases Option.map_eq_some_iff.1 h with ⟨o, hfind, hs⟩
  have hrun := getCfgValue_spec (z := []) hkey hclean file
  rw [hfind] at hrun
  rcases o with _ | v
  · have hnil : s = [] := hs.symm
    subst hnil
    refine ⟨fun _ => ⟨Buf.zeroed 256, ?_, Buf.str_zeroed⟩, fun hover => ?_⟩
    · simp [cfgValue, hrun, cfgAnswer]
    · exact absurd (by decide) hover
  · have hv : v = s := hs
    subst hv
    constructor
    · intro hfits
      rcases (Buf.zeroed 256).blit_terminated hfits with ⟨b, rest, hb, hbytes⟩
      refine ⟨b, by simp [cfgValue, hrun, cfgAnswer, hb], ?_⟩
      exact Buf.str_of_bytes (zero_not_mem_cfgText h) rest hbytes
    · intro hover
      have hblit := (Buf.zeroed 256).blit_terminated_eq_none hover
      simp [cfgValue, hrun, cfgAnswer, hblit]

end Lookups

/-! ## The table of fields -/

/-- A field of the configuration: its key, and what its value makes of the record. -/
structure CfgField where
  key : List Byte
  fill : List Byte → CommSvrSocket → CommSvrSocket

/-- The fields, in the order of their lookups. -/
def cfgFields : List CfgField :=
  [{ key := ascii "COMM_SVR_PORT"
     fill := fun s svr => { svr with commSvrPort := UInt16.ofInt (atoi s) } },
   { key := ascii "WATER_IP"
     fill := fun s svr => { svr with waterIp := snprintf svr.waterIp s } },
   { key := ascii "WATER_PORT"
     fill := fun s svr => { svr with waterPort := snprintf svr.waterPort s } },
   { key := ascii "WATER_TIMEOUT"
     fill := fun s svr => { svr with waterTimeout := atoi s } }]

theorem key_ne_nil : ∀ field ∈ cfgFields, field.key ≠ [] := by decide

/-- The lookups of `fields` one after the other, with `p` as the configuration before. -/
def loadFields (file : List Byte) (p : CommSvrSocket) :
    List CfgField → CommSvrSocket → Option (Int × CommSvrSocket)
  | [], svr => some (eOk, svr)
  | field :: fields, svr =>
      match cfgText field.key file with
      | none => some (eFail, p)
      | some s => if CfgFits s then loadFields file p fields (field.fill s svr) else none

/-- Every value that is read fits: those of the fields up to the first that is missing. -/
def FitsUpToMissing (file : List Byte) : List CfgField → Prop
  | [] => True
  | field :: fields =>
      ∀ s, cfgText field.key file = some s → CfgFits s ∧ FitsUpToMissing file fields

/-- The record filled with the values of all fields. -/
def filled (file : List Byte) (fields : List CfgField) (svr : CommSvrSocket) : CommSvrSocket :=
  fields.foldl (fun svr field => field.fill ((cfgText field.key file).getD []) svr) svr

section Fields

variable {file : List Byte} {p : CommSvrSocket}

/-- Loading ends in one of three ways. -/
theorem loadFields_cases (file : List Byte) (p : CommSvrSocket) (fields : List CfgField)
    (svr : CommSvrSocket) :
    (¬ FitsUpToMissing file fields ∧ loadFields file p fields svr = none) ∨
      (FitsUpToMissing file fields ∧ (∃ field ∈ fields, cfgText field.key file = none) ∧
        loadFields file p fields svr = some (eFail, p)) ∨
      (FitsUpToMissing file fields ∧ (∀ field ∈ fields, cfgText field.key file ≠ none) ∧
        loadFields file p fields svr = some (eOk, filled file fields svr)) := by
  induction fields generalizing svr with
  | nil => exact .inr (.inr ⟨trivial, by simp, rfl⟩)
  | cons field fields ih =>
      cases htext : cfgText field.key file with
      | none =>
          refine .inr (.inl ⟨?_, ⟨field, List.mem_cons_self, htext⟩, ?_⟩)
          · intro s hs
            rw [htext] at hs
            cases hs
          · simp only [loadFields, htext]
      | some s =>
          by_cases hfits : CfgFits s
          · have hstep : loadFields file p (field :: fields) svr =
                loadFields file p fields (field.fill s svr) := by
              simp only [loadFields, htext, hfits, if_true]
            have hcons : FitsUpToMissing file (field :: fields) ↔ FitsUpToMissing file fields := by
              simp [FitsUpToMissing, htext, hfits]
            have hfill : filled file (field :: fields) svr =
                filled file fields (field.fill s svr) := by
              simp [filled, htext]
            rw [hstep, hcons, hfill]
            refine (ih (field.fill s svr)).imp_right (Or.imp ?_ ?_)
            · rintro ⟨hguard, ⟨f, hf, hnone⟩, hrun⟩
              exact ⟨hguard, ⟨f, List.mem_cons_of_mem field hf, hnone⟩, hrun⟩
            · rintro ⟨hguard, hall, hrun⟩
              refine ⟨hguard, fun f hf => ?_, hrun⟩
              rcases List.mem_cons.1 hf with rfl | hf
              · simp [htext]
              · exact hall f hf
          · -- The value overruns the array.
            refine .inl ⟨fun h => hfits (h s htext).1, ?_⟩
            simp only [loadFields, htext, hfits, if_false]

/-- The values of the fields decide the result. -/
theorem loadFields_congr {file' : List Byte} {fields : List CfgField}
    (h : ∀ field ∈ fields, cfgText field.key file = cfgText field.key file')
    (svr : CommSvrSocket) : loadFields file p fields svr = loadFields file' p fields svr := by
  induction fields generalizing svr with
  | nil => rfl
  | cons field fields ih =>
      have hrest := ih fun f hf => h f (List.mem_cons_of_mem field hf)
      simp only [loadFields, h field List.mem_cons_self, hrest]

/-- With a value that fits for every field, all of them are filled in. -/
theorem loadFields_of_texts {fields : List CfgField} (text : List Byte → List Byte)
    (h : ∀ field ∈ fields, cfgText field.key file = some (text field.key) ∧
      CfgFits (text field.key)) (svr : CommSvrSocket) :
    loadFields file p fields svr =
      some (eOk, fields.foldl (fun svr field => field.fill (text field.key) svr) svr) := by
  induction fields generalizing svr with
  | nil => rfl
  | cons field fields ih =>
      rcases h field List.mem_cons_self with ⟨htext, hfits⟩
      have hrest := ih (fun f hf => h f (List.mem_cons_of_mem field hf))
        (field.fill (text field.key) svr)
      simpa only [loadFields, htext, hfits, if_true, List.foldl_cons] using hrest

/-- One lookup of `get_comm_svr_cfg`, where the rest of the function reads `value` as a string. -/
theorem loadFields_cons {field : CfgField} {fields : List CfgField} {svr : CommSvrSocket}
    (hkey : field.key ≠ [] ∧ (0 : Byte) ∉ field.key)
    {next : Int × Buf 256 → Option (Int × CommSvrSocket)}
    (hfail : ∀ b, next (eFail, b) = some (eFail, p))
    (hok : ∀ b, next (eOk, b) = loadFields file p fields (field.fill b.str svr)) :
    cfgValue (some file) field.key (Buf.zeroed 256) >>= next =
      loadFields file p (field :: fields) svr := by
  cases htext : cfgText field.key file with
  | none =>
      simp only [loadFields, htext, cfgValue_none hkey.1 hkey.2 htext]
      exact hfail (Buf.zeroed 256)
  | some s =>
      rcases cfgValue_some hkey.1 hkey.2 htext with ⟨hfit, hover⟩
      by_cases hfits : CfgFits s
      · rcases hfit hfits with ⟨b, hrun, hstr⟩
        have hrest : next (eOk, b) = loadFields file p fields (field.fill s svr) := by
          rw [hok b, hstr]
        simp only [loadFields, htext, hfits, if_true, hrun]
        exact hrest
      · simp only [loadFields, htext, hfits, if_false, hover hfits]
        rfl

/-- `get_comm_svr_cfg` is the loading of its four fields. -/
theorem getCommSvrCfg_spec (file : List Byte) (p : CommSvrSocket) :
    getCommSvrCfg (some file) p = loadFields file p cfgFields CommSvrSocket.zeroed := by
  have hkeys : ∀ i : Fin 4, cfgFields[i].key ≠ [] ∧ (0 : Byte) ∉ cfgFields[i].key := by decide
  refine loadFields_cons (hkeys 0) (fun _ => rfl) fun port => ?_
  refine loadFields_cons (hkeys 1) (fun _ => rfl) fun ip => ?_
  refine loadFields_cons (hkeys 2) (fun _ => rfl) fun waterPort => ?_
  refine loadFields_cons (hkeys 3) (fun _ => rfl) fun timeout => ?_
  -- What the four rounds have filled in, up to how `atoi` reads its argument.
  show some (eOk, ({
      commSvrPort := UInt16.ofInt (atoi port.bytes)
      waterIp := snprintf (Buf.zeroed 64) ip.str
      waterPort := snprintf (Buf.zeroed 8) waterPort.str
      waterTimeout := atoi timeout.bytes
      tuxEnvstr := Buf.zeroed 64 } : CommSvrSocket)) = _
  rw [atoi_str port, atoi_str timeout]
  rfl

end Fields

end CommServer

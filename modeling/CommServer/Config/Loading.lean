import CommServer.Config.Comments

/-!
# Loading — is the configuration loaded in full or not at all?

`LoadedWhole file` says that `get_comm_svr_cfg` fails and leaves the record alone, or fills it with
the values of the file, none of them cut off on the way into the environment string.

Nothing checks a length between the file and that string.  `loadedWhole_iff` lists what has to hold
of the values instead: 255 bytes for each that is read, 16 bits for the port, 7 bytes for the port of
the water company, and 52 bytes for its address and its port together.
-/

namespace CommServer
namespace Config

open CLib Text

/-! ## Loading a file in full -/

/-- The record holds the values that the file gives to the keys, and `do_process` makes the
environment string of them. -/
structure Carries (file : List Byte) (svr : CommSvrSocket) : Prop where
  port : ∃ v d, fileValue (ascii "COMM_SVR_PORT") file = some v ∧ numeral v = some d ∧
    (svr.commSvrPort.toNat : Int) = d
  envstr : ∃ ip waterPort svr', fileValue (ascii "WATER_IP") file = some ip ∧
    fileValue (ascii "WATER_PORT") file = some waterPort ∧
    svr.waterIp.str = ip ∧ svr.waterPort.str = waterPort ∧
    withEnvstr svr = some svr' ∧
    svr'.tuxEnvstr.str = ascii "WSNADDR=//" ++ ip ++ ascii ":" ++ waterPort

/-- No array is overrun; the record is left alone, or it carries what the file says. -/
def LoadedWhole (file : List Byte) : Prop :=
  ∀ p, ∃ ret svr, getCommSvrCfg (some file) p = some (ret, svr) ∧
    ((ret = eFail ∧ svr = p) ∨ (ret = eOk ∧ Carries file svr))

/-! ## The values on their way -/

/-- The texts that are read for the first three keys are the values of the file, up to what the
record does not tell apart, and they have room. -/
structure ValuesKept (file port ip waterPort : List Byte) : Prop where
  /-- The port of the file is a number of 16 bits, and the text is that port or is congruent to
  it. -/
  portKept : ∃ v d, fileValue (ascii "COMM_SVR_PORT") file = some v ∧ numeral v = some d ∧
    0 ≤ d ∧ d < 2 ^ 16 ∧ (port = v ∨ atoi port % 2 ^ 16 = d)
  ipKept : fileValue (ascii "WATER_IP") file = some ip
  /-- Only seven bytes of the text are looked at. -/
  waterPortKept : fileValue (ascii "WATER_PORT") file = some (waterPort.take 7)
  room : ip.length + (waterPort.take 7).length ≤ 52

/-- The record as it is filled from the four texts. -/
def loaded (port ip waterPort timeout : List Byte) : CommSvrSocket :=
  { commSvrPort := UInt16.ofInt (atoi port)
    waterIp := snprintf (Buf.zeroed 64) ip
    waterPort := snprintf (Buf.zeroed 8) waterPort
    waterTimeout := atoi timeout
    tuxEnvstr := Buf.zeroed 64 }

/-- A word of a configuration file, as a C string. -/
def Word (s : List Byte) : Prop :=
  ∀ c ∈ s, isSpace c = false ∧ c ≠ 0

instance (s : List Byte) : Decidable (Word s) :=
  List.decidableBAll _ s

section Values

variable {file port ip waterPort timeout : List Byte}

theorem Word.take {s : List Byte} (h : Word s) (n : Nat) : Word (s.take n) :=
  fun c hc => h c (List.mem_of_mem_take hc)

theorem Word.append {s t : List Byte} (hs : Word s) (ht : Word t) : Word (s ++ t) := by
  intro c hc
  rcases List.mem_append.1 hc with hc | hc
  · exact hs c hc
  · exact ht c hc

theorem Word.zero_not_mem {s : List Byte} (h : Word s) : (0 : Byte) ∉ s :=
  fun hmem => (h 0 hmem).2 rfl

/-- A word has no spaces for `bcl_trimall`. -/
theorem Word.filter_eq {s : List Byte} (h : Word s) : s.filter (· ≠ 0x20) = s := by
  rw [List.filter_eq_self]
  intro c hc
  have hne : c ≠ 0x20 := by
    rintro rfl
    exact absurd (h 0x20 hc).1 (by decide)
  simpa using hne

/-- The environment string is cut off behind 63 bytes. -/
theorem withEnvstr_spec (svr : CommSvrSocket) (hip : Word svr.waterIp.str)
    (hport : Word svr.waterPort.str) :
    ∃ svr', withEnvstr svr = some svr' ∧ svr'.tuxEnvstr.str =
      (ascii "WSNADDR=//" ++ svr.waterIp.str ++ ascii ":" ++ svr.waterPort.str).take 63 := by
  have hlit : Word (ascii "WSNADDR=//") ∧ Word (ascii ":") := by decide
  have hword := ((hlit.1.append hip).append hlit.2).append hport
  have hstr := snprintf_str svr.tuxEnvstr (by decide) hword.zero_not_mem
  have hterm := Buf.zero_mem_of_length_str_lt (b := snprintf svr.tuxEnvstr
      (ascii "WSNADDR=//" ++ svr.waterIp.str ++ ascii ":" ++ svr.waterPort.str)) (by
    rw [hstr, List.length_take]
    omega)
  rcases bclTrimall_spec _ hterm with ⟨b, hrun, -, htrim⟩
  refine ⟨{ svr with tuxEnvstr := b }, ?_, ?_⟩
  · simp only [withEnvstr, hrun]
    rfl
  · show b.str = _
    rw [htrim, hstr, (hword.take 63).filter_eq]

/-- The port is stored modulo `2 ^ 16`. -/
theorem port_stored_iff {v : List Byte} {d : Int} (hv : numeral v = some d) :
    ((UInt16.ofInt (atoi port)).toNat : Int) = d ↔
      0 ≤ d ∧ d < 2 ^ 16 ∧ (port = v ∨ atoi port % 2 ^ 16 = d) := by
  have hstored : ((UInt16.ofInt (atoi port)).toNat : Int) = atoi port % 2 ^ 16 := by
    rw [UInt16.ofInt, UInt16.toNat_ofNat']
    omega
  rw [hstored]
  constructor
  · intro h
    refine ⟨by omega, by omega, .inr h⟩
  · rintro ⟨hlo, hhi, rfl | h⟩
    · rw [atoi_numeral hv (by omega) (by omega)]
      omega
    · exact h

/-- What the record carries is what is kept of the values. -/
theorem carries_loaded_iff (hip : Word ip) (hwaterPort : Word waterPort) :
    Carries file (loaded port ip waterPort timeout) ↔ ValuesKept file port ip waterPort := by
  have hipStr : (loaded port ip waterPort timeout).waterIp.str = ip.take 63 :=
    snprintf_str _ (by decide) hip.zero_not_mem
  have hportStr : (loaded port ip waterPort timeout).waterPort.str = waterPort.take 7 :=
    snprintf_str _ (by decide) hwaterPort.zero_not_mem
  rcases withEnvstr_spec (loaded port ip waterPort timeout) (hipStr ▸ hip.take 63)
    (hportStr ▸ hwaterPort.take 7) with ⟨svr, hrun, henv⟩
  rw [hipStr, hportStr] at henv
  -- The string has ten bytes in front and one between the two texts.
  have hlit : (ascii "WSNADDR=//").length = 10 ∧ (ascii ":").length = 1 := by decide
  have hlength : (ascii "WSNADDR=//" ++ ip.take 63 ++ ascii ":" ++ waterPort.take 7).length =
      (ip.take 63).length + (waterPort.take 7).length + 11 := by
    simp only [List.length_append, hlit]
    omega
  constructor
  · rintro ⟨⟨v, d, hfile, hv, hd⟩, ⟨ip', waterPort', svr', hfip, hfport, rfl, rfl, hrun', henv'⟩⟩
    rw [hipStr] at hfip henv'
    rw [hportStr] at hfport henv'
    have hsvr : svr = svr' := Option.some.inj (hrun.symm.trans hrun')
    -- The string is whole, so it has at most 63 bytes.
    rw [← hsvr, henv, List.take_eq_self_iff, hlength] at henv'
    have hwhole : ip.take 63 = ip := by
      rw [List.take_eq_self_iff]
      rw [List.length_take] at henv'
      omega
    rw [hwhole] at hfip henv'
    exact ⟨⟨v, d, hfile, hv, (port_stored_iff hv).1 hd⟩, hfip, hfport, by omega⟩
  · rintro ⟨⟨v, d, hfile, hv, hd⟩, hfip, hfport, hroom⟩
    have hwhole : ip.take 63 = ip := List.take_of_length_le (by omega)
    refine ⟨⟨v, d, hfile, hv, (port_stored_iff hv).2 hd⟩,
      ⟨ip, waterPort.take 7, svr, hfip, hfport, hipStr.trans hwhole, hportStr, hrun, ?_⟩⟩
    rw [hwhole] at henv hlength
    rw [henv]
    exact List.take_of_length_le (by omega)

end Values

/-! ## Every file -/

section Files

variable {file : List Byte}

/-- An array is overrun exactly when a value that is read does not fit. -/
theorem overrun_iff (p : CommSvrSocket) :
    getCommSvrCfg (some file) p = none ↔ ¬ FitsUpToMissing file cfgFields := by
  rw [getCommSvrCfg_spec]
  rcases loadFields_cases file p cfgFields CommSvrSocket.zeroed with
    ⟨hover, hrun⟩ | ⟨hfits, -, hrun⟩ | ⟨hfits, -, hrun⟩
  · simp [hrun, hover]
  · simp [hrun, hfits]
  · simp [hrun, hfits]

/-- With all four keys, and values that fit, the record is filled with their texts. -/
theorem getCommSvrCfg_loaded {port ip waterPort timeout : List Byte}
    (hfits : FitsUpToMissing file cfgFields) (hport : cfgText (ascii "COMM_SVR_PORT") file = some port)
    (hip : cfgText (ascii "WATER_IP") file = some ip)
    (hwaterPort : cfgText (ascii "WATER_PORT") file = some waterPort)
    (htimeout : cfgText (ascii "WATER_TIMEOUT") file = some timeout) (p : CommSvrSocket) :
    getCommSvrCfg (some file) p = some (eOk, loaded port ip waterPort timeout) := by
  have hfilled : filled file cfgFields CommSvrSocket.zeroed = loaded port ip waterPort timeout := by
    simp only [filled, cfgFields, List.foldl_cons, List.foldl_nil, hport, hip, hwaterPort, htimeout]
    rfl
  have hall : ∀ field ∈ cfgFields, cfgText field.key file ≠ none := by
    simp [cfgFields, hport, hip, hwaterPort, htimeout]
  rw [getCommSvrCfg_spec]
  rcases loadFields_cases file p cfgFields CommSvrSocket.zeroed with
    ⟨hover, -⟩ | ⟨-, hmissing, -⟩ | ⟨-, -, hrun⟩
  · exact absurd hfits hover
  · rcases hmissing with ⟨field, hfield, hnone⟩
    exact absurd hnone (hall field hfield)
  · rw [hrun, hfilled]

/-- A file that is loaded in full keeps its values on the way. -/
theorem kept_of_loadedWhole (h : LoadedWhole file) :
    FitsUpToMissing file cfgFields ∧ ∀ port ip waterPort timeout,
      cfgText (ascii "COMM_SVR_PORT") file = some port →
      cfgText (ascii "WATER_IP") file = some ip →
      cfgText (ascii "WATER_PORT") file = some waterPort →
      cfgText (ascii "WATER_TIMEOUT") file = some timeout →
      ValuesKept file port ip waterPort := by
  rcases h CommSvrSocket.zeroed with ⟨ret, svr, hrun, hend⟩
  have hfits : FitsUpToMissing file cfgFields := by
    by_contra hover
    rw [(overrun_iff CommSvrSocket.zeroed).2 hover] at hrun
    cases hrun
  refine ⟨hfits, fun port ip waterPort timeout hport hip hwaterPort htimeout => ?_⟩
  have hloaded := getCommSvrCfg_loaded hfits hport hip hwaterPort htimeout CommSvrSocket.zeroed
  have hpair : (ret, svr) = (eOk, loaded port ip waterPort timeout) :=
    Option.some.inj (hrun.symm.trans hloaded)
  cases hpair
  rcases hend with ⟨hret, -⟩ | ⟨-, hcarries⟩
  · exact absurd hret (by decide)
  · exact (carries_loaded_iff (cfgText_letters hip) (cfgText_letters hwaterPort)).1 hcarries

/-- The shipped file, with a port of more than 16 bits. -/
def widePort : List Byte :=
  ascii "COMM_SVR_PORT 70000\nWATER_IP 192.168.1.166\nWATER_PORT 15001\nWATER_TIMEOUT 60\n"

/-- Such a port becomes another one. -/
theorem wide_port_is_cut : ¬ LoadedWhole widePort := by
  intro h
  have hclean : (0 : Byte) ∉ widePort ∧ ∀ l ∈ lines widePort, l.length < maxLineLegth - 1 := by
    decide
  have htexts : ∀ field ∈ cfgFields,
      ((lines widePort).findSome? (hit field.key)).isSome := by decide
  have htext : ∀ field ∈ cfgFields, ∃ s, cfgText field.key widePort = some s := by
    intro field hfield
    rcases Option.isSome_iff_exists.1 (htexts field hfield) with ⟨o, ho⟩
    refine ⟨o.getD [], ?_⟩
    rw [cfgText_lines (key_ne_nil field hfield) hclean.1 hclean.2, ho]
    rfl
  simp only [cfgFields, List.forall_mem_cons] at htext
  rcases htext with ⟨⟨port, hport⟩, ⟨ip, hip⟩, ⟨waterPort, hwaterPort⟩, ⟨timeout, htimeout⟩, -⟩
  have hkept := (kept_of_loadedWhole h).2 port ip waterPort timeout hport hip hwaterPort htimeout
  -- A port that is kept has 16 bits.
  rcases hkept.portKept with ⟨v, d, hv, hd, -, hlt, -⟩
  have hvalue : v = ascii "70000" := Option.some.inj (hv.symm.trans (by decide))
  have hnumber : d = 70000 := by
    rw [hvalue] at hd
    exact Option.some.inj (hd.symm.trans (by decide))
  omega

/-- The configuration is loaded in full, or not at all, exactly when every value that is read fits
the array of `get_comm_svr_cfg`, and the values of a file with all four keys are kept. -/
theorem loadedWhole_iff (file : List Byte) :
    LoadedWhole file ↔ FitsUpToMissing file cfgFields ∧ ∀ port ip waterPort timeout,
      cfgText (ascii "COMM_SVR_PORT") file = some port →
      cfgText (ascii "WATER_IP") file = some ip →
      cfgText (ascii "WATER_PORT") file = some waterPort →
      cfgText (ascii "WATER_TIMEOUT") file = some timeout →
      ValuesKept file port ip waterPort := by
  refine ⟨kept_of_loadedWhole, ?_⟩
  rintro ⟨hfits, hkept⟩ p
  by_cases hall : ∀ field ∈ cfgFields, cfgText field.key file ≠ none
  · -- All four keys are there.
    have htext : ∀ field ∈ cfgFields, ∃ s, cfgText field.key file = some s := fun field hfield =>
      Option.ne_none_iff_exists'.1 (hall field hfield)
    simp only [cfgFields, List.forall_mem_cons] at htext
    rcases htext with ⟨⟨port, hport⟩, ⟨ip, hip⟩, ⟨waterPort, hwaterPort⟩, ⟨timeout, htimeout⟩, -⟩
    refine ⟨eOk, loaded port ip waterPort timeout,
      getCommSvrCfg_loaded hfits hport hip hwaterPort htimeout p, .inr ⟨rfl, ?_⟩⟩
    exact (carries_loaded_iff (cfgText_letters hip) (cfgText_letters hwaterPort)).2
      (hkept port ip waterPort timeout hport hip hwaterPort htimeout)
  · -- The lookup of a key that is missing ends the function.
    refine ⟨eFail, p, ?_, .inl ⟨rfl, rfl⟩⟩
    rw [getCommSvrCfg_spec]
    rcases loadFields_cases file p cfgFields CommSvrSocket.zeroed with
      ⟨hover, -⟩ | ⟨-, -, hrun⟩ | ⟨-, hpresent, -⟩
    · exact absurd hfits hover
    · exact hrun
    · exact absurd hpresent hall

/-- `do_process` then exits, or goes on with the values of the file in its environment string. -/
theorem doProcessCfg_of_loadedWhole (h : LoadedWhole file) :
    doProcessCfg (some file) = some none ∨ ∃ svr ip waterPort,
      doProcessCfg (some file) = some (some svr) ∧
      fileValue (ascii "WATER_IP") file = some ip ∧
      fileValue (ascii "WATER_PORT") file = some waterPort ∧
      svr.tuxEnvstr.str = ascii "WSNADDR=//" ++ ip ++ ascii ":" ++ waterPort := by
  rcases h CommSvrSocket.zeroed with ⟨ret, svr, hrun, ⟨rfl, -⟩ | ⟨rfl, hcarries⟩⟩
  · left
    simp only [doProcessCfg, hrun]
    rfl
  · right
    rcases hcarries.envstr with ⟨ip, waterPort, svr', hip, hwaterPort, -, -, henv, hstr⟩
    refine ⟨svr', ip, waterPort, ?_, hip, hwaterPort, hstr⟩
    simp [doProcessCfg, hrun, henv]

end Files

end Config
end CommServer

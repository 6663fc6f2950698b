import CommServer.Src.Legacy
import CommServer.Src.ProcessParseSpec

/-!
# LegacySpec — what `process_parse_20160927` makes of a frame

* `receiveFrame_accepted` : a frame that comes in whole is accepted and stands in `recv_msg`;
* `parseFramed_spec`      : the fields taken out of it;
* `formatFramed_spec`, `formatTimeout20160927_spec` : the responses are frames.
-/

namespace CommServer

open CLib Text Transition

/-- The frame `%08d` of the length of a body, and the body. -/
def frame (body : List Byte) : List Byte :=
  printfPadded 8 body.length ++ body

/-- A body as the protocol has it: `$响应码$Tuxedo交易码$数据包$`. -/
def frameBody (code tranCode data : List Byte) : List Byte :=
  dollar :: (code ++ dollar :: (tranCode ++ dollar :: (data ++ [dollar])))

theorem printfPadded_natCast (w n : Nat) : printfPadded w n = zeroPadded w n := by
  have hneg : ¬ (n : Int) < 0 := by omega
  simp [printfPadded, hneg]

@[simp] theorem length_frameBody (code tranCode data : List Byte) :
    (frameBody code tranCode data).length = 4 + code.length + tranCode.length + data.length := by
  simp only [frameBody, List.length_cons, List.length_append, List.length_nil]
  omega

theorem zero_not_mem_frameBody {code tranCode data : List Byte} (hcode : (0 : Byte) ∉ code)
    (htran : (0 : Byte) ∉ tranCode) (hdata : (0 : Byte) ∉ data) :
    (0 : Byte) ∉ frameBody code tranCode data := by
  have hdollar : (0 : Byte) ≠ dollar := by decide
  simp [frameBody, hcode, htran, hdata, hdollar]

theorem frame_eq (body : List Byte) : frame body = zeroPadded 8 body.length ++ body := by
  rw [frame, printfPadded_natCast]

theorem length_header {body : List Byte} (hlen : body.length < 10 ^ 8) :
    (zeroPadded 8 body.length).length = 8 :=
  length_zeroPadded hlen

theorem length_frame {body : List Byte} (hlen : body.length < 10 ^ 8) :
    (frame body).length = 8 + body.length := by
  rw [frame_eq, List.length_append, length_header hlen]

theorem zero_not_mem_frame {body : List Byte} (hbody : (0 : Byte) ∉ body) :
    (0 : Byte) ∉ frame body := by
  rw [frame_eq, List.mem_append, not_or]
  exact ⟨fun hmem => absurd (isDigit_of_mem_zeroPadded hmem) (by decide), hbody⟩

/-- The peer sends a frame, and both `recvn` return the size they were asked for. -/
structure DeliveredFrame (rx : FramedReception) (body : List Byte) : Prop where
  stream : rx.stream = frame body
  head : (receiveHead rx).2 = some (.ret pkgheadLength)
  body : ∀ recvMsg : Buf maxbufLen,
    (receiveBody recvMsg body.length body rx.body).2 = some (.ret body.length)

/-- Only the 32 bits of the `int` get through. -/
theorem toNat_sizeOfInt_eq_emod (v : Int) : ((sizeOfInt v).toNat : Int) = v % 2 ^ 32 := by
  have hnat : (sizeOfInt v).toNat = (BitVec.ofInt 32 v).toNat := UInt32.toNat_toUInt64 _
  rw [hnat, BitVec.toNat_ofInt]
  omega

theorem toNat_sizeOfInt {n : Nat} (hn : n < 2 ^ 31) : (sizeOfInt (n : Int)).toNat = n := by
  have hmod := toNat_sizeOfInt_eq_emod n
  omega

theorem toNat_sizeOfInt_lt (v : Int) : (sizeOfInt v).toNat < 2 ^ 32 := by
  have hmod := toNat_sizeOfInt_eq_emod v
  omega

/-! ## Receptions -/

/-- `recv_head` has room for the header, so the first `recvn` waits or returns. -/
theorem receiveHead_ends (rx : FramedReception) {fin : RecvEnd}
    (h : (receiveHead rx).2 = some fin) : ∃ v, fin = .ret v := by
  obtain ⟨got, -, hret⟩ := recvn_spec (Buf.zeroed 128) 0 8 (by decide) (by decide)
    rx.stream rx.head
  rcases hret fin h with hfail | hread
  · exact ⟨-1, hfail⟩
  · exact ⟨got, hread⟩

/-- A header of the right length is what stands in `recv_head`, in front of zeros. -/
theorem receiveHead_read {rx : FramedReception} {hd body : List Byte} (hhd : hd.length = 8)
    (hstream : rx.stream = hd ++ body) (h : (receiveHead rx).2 = some (.ret pkgheadLength)) :
    (receiveHead rx).1.buf.bytes = hd ++ 0 :: List.replicate 119 0 ∧
      (receiveHead rx).1.inbox = body := by
  obtain ⟨got, hinv, hret⟩ := recvn_spec (Buf.zeroed 128) 0 8 (by decide) (by decide)
    rx.stream rx.head
  -- All of the header was read, and nothing of the body.
  have hgot : got = 8 := by
    rcases hret _ h with hfail | hread
    · cases hfail
    · have heq : (8 : Int) = got := RecvEnd.ret.inj hread
      omega
  have hstored := ((Buf.blit_eq_some_iff _ _ _ _).1 hinv.stored).2
  have htake : rx.stream.take 8 = hd := by
    rw [hstream]
    exact List.take_left' hhd
  rw [hgot, htake, hhd] at hstored
  refine ⟨hstored, ?_⟩
  calc
    (receiveHead rx).1.inbox = rx.stream.drop 8 := hgot ▸ hinv.inbox
    _ = body := by rw [hstream, List.drop_left' hhd]

/-- The copy of the header starts the zeroed `recv_msg`. -/
theorem startMessage_of_header {recvHead : Buf 128} {hd rest : List Byte} (hhd : hd.length = 8)
    (hbytes : recvHead.bytes = hd ++ rest) :
    ∃ start, (Buf.zeroed maxbufLen).blit 0 hd = some start ∧ startMessage recvHead = some start := by
  have hmax : maxbufLen = 10240 := rfl
  obtain ⟨start, hstart⟩ := (Buf.zeroed maxbufLen).blit_of_le
    (show 0 + hd.length ≤ maxbufLen by omega)
  refine ⟨start, hstart, ?_⟩
  rw [startMessage, hbytes, List.take_left' hhd]
  exact hstart

/-- What follows from the second `recvn`, when `msglen` bytes were asked for. -/
def bodyEnd (msglen : Int) : RecvnSt maxbufLen × Option RecvEnd → FramedEnd
  | (_, none) => .waiting
  | (_, some .fault) => .fault
  | (b, some (.ret ret)) => if ret ≠ msglen then .rejected else .accepted b.buf

theorem bodyEnd_eq_accepted_iff {msglen : Int} {out : RecvnSt maxbufLen × Option RecvEnd}
    {recvMsg : Buf maxbufLen} :
    bodyEnd msglen out = .accepted recvMsg ↔ out.2 = some (.ret msglen) ∧ out.1.buf = recvMsg := by
  rcases out with ⟨b, _ | ret | _⟩
  · simp [bodyEnd]
  · by_cases hret : ret = msglen <;> simp [bodyEnd, hret]
  · simp [bodyEnd]

theorem bodyEnd_eq_fault_iff {msglen : Int} {out : RecvnSt maxbufLen × Option RecvEnd} :
    bodyEnd msglen out = .fault ↔ out.2 = some .fault := by
  rcases out with ⟨b, _ | ret | _⟩
  · simp [bodyEnd]
  · by_cases hret : ret = msglen <;> simp [bodyEnd, hret]
  · simp [bodyEnd]

/-- With the header read, the rest is the second `recvn`, behind a copy of the header. -/
theorem receiveFrame_eq {rx : FramedReception} {hd body : List Byte} (hhd : hd.length = 8)
    (hstream : rx.stream = hd ++ body) (h : (receiveHead rx).2 = some (.ret pkgheadLength)) :
    ∃ start, (Buf.zeroed maxbufLen).blit 0 hd = some start ∧
      receiveFrame rx =
        bodyEnd (atoi (hd ++ [0])) (receiveBody start (atoi (hd ++ [0])) body rx.body) := by
  rcases receiveHead_read hhd hstream h with ⟨hbytes, hinbox⟩
  rcases startMessage_of_header hhd hbytes with ⟨start, hstart, hcopied⟩
  -- The header is a string, because `recv_head` is longer than it and zeroed.
  have hmsglen : atoi (receiveHead rx).1.buf.bytes = atoi (hd ++ [0]) := by
    rw [hbytes, atoi_append_zero, atoi_append_zero]
  have hst : receiveHead rx = ((receiveHead rx).1, some (.ret pkgheadLength)) := Prod.ext rfl h
  refine ⟨start, hstart, ?_⟩
  rw [receiveFrame, hst]
  simp only [ne_eq, not_true_eq_false, if_false, hcopied, hmsglen, hinbox]
  rcases receiveBody start (atoi (hd ++ [0])) body rx.body with ⟨b, _ | _ | _⟩ <;> rfl

/-- Without a whole header nothing is asked for. -/
theorem receiveFrame_headless {rx : FramedReception}
    (h : (receiveHead rx).2 ≠ some (.ret pkgheadLength)) :
    receiveFrame rx = .waiting ∨ receiveFrame rx = .rejected := by
  cases hend : (receiveHead rx).2 with
  | none =>
      have hst : receiveHead rx = ((receiveHead rx).1, none) := Prod.ext rfl hend
      left
      rw [receiveFrame, hst]
  | some fin =>
      rcases receiveHead_ends rx hend with ⟨v, rfl⟩
      have hst : receiveHead rx = ((receiveHead rx).1, some (.ret v)) := Prod.ext rfl hend
      have hne : v ≠ pkgheadLength := by
        rintro rfl
        exact h hend
      right
      rw [receiveFrame, hst]
      simp only [hne, ne_eq, not_false_eq_true, if_true]

/-- The second `recvn` has returned the size it was asked for: all of it is stored. -/
theorem receiveBody_read {start : Buf maxbufLen} {n : Nat} {body : List Byte}
    {script : List RecvResult} (hn : n < 2 ^ 31)
    (h : (receiveBody start n body script).2 = some (.ret n)) :
    start.blit pkgheadLength (body.take n) = some (receiveBody start n body script).1.buf ∧
      (receiveBody start n body script).1.inbox = body.drop n ∧ n ≤ body.length := by
  have hsize : (sizeOfInt (n : Int)).toNat = n := toNat_sizeOfInt hn
  obtain ⟨got, hinv, hret⟩ := recvn_outcome start pkgheadLength (sizeOfInt n) (by decide)
    (by decide) (by omega) body script
  have hgot : got = n := by
    rcases hret _ h with hfail | hread | ⟨hfault, -⟩
    · have hneg : (n : Int) = -1 := RecvEnd.ret.inj hfail
      omega
    · have heq : (n : Int) = got := RecvEnd.ret.inj hread
      omega
    · cases hfault
  have hbound := hinv.bound
  exact ⟨hgot ▸ hinv.stored, hgot ▸ hinv.inbox, by omega⟩

/-- A frame that comes in whole is accepted, and stands at the front of the zeroed `recv_msg`. -/
theorem receiveFrame_accepted {rx : FramedReception} {body : List Byte}
    (h : DeliveredFrame rx body) (hlen : body.length < maxbufLen - pkgheadLength) :
    ∃ recvMsg, receiveFrame rx = .accepted recvMsg ∧
      (Buf.zeroed maxbufLen).blit 0 (frame body) = some recvMsg := by
  have hmax : maxbufLen = 10240 := rfl
  have hwidth : (zeroPadded 8 body.length).length = 8 := length_header (by omega)
  have hmsglen : atoi (zeroPadded 8 body.length ++ [0]) = body.length :=
    atoi_zeroPadded (by omega) []
  rcases receiveFrame_eq hwidth (h.stream.trans (frame_eq body)) h.head with
    ⟨start, hstart, hrun⟩
  rw [hmsglen] at hrun
  obtain ⟨hstored, -, -⟩ := receiveBody_read (by omega) (h.body start)
  rw [List.take_length] at hstored
  refine ⟨(receiveBody start body.length body rx.body).1.buf, ?_, ?_⟩
  · rw [hrun]
    exact bodyEnd_eq_accepted_iff.2 ⟨h.body start, rfl⟩
  · -- The header was copied first, and the body is stored behind it.
    rw [frame_eq]
    refine Buf.blit_append hstart ?_
    rw [hwidth]
    exact hstored

/-! ## The fields -/

/-- The fields of a terminated message, one further than `process_parse` looks. -/
theorem parseFramed_spec {recvMsg : Buf maxbufLen} (h : (0 : Byte) ∈ recvMsg.bytes) :
    ∃ req, parseFramed recvMsg = some req ∧
      req.tranCode.str = (field [dollar] recvMsg.str 2).take 63 ∧
      req.requestData.str = (field [dollar] recvMsg.str 3).take desStrLen := by
  rcases eq_cstr_append_zero h with ⟨rest, hrest⟩
  have hmsg : (0 : Byte) ∉ recvMsg.str := recvMsg.zero_not_mem_str
  have hbytes : recvMsg.bytes = recvMsg.str ++ 0 :: rest := hrest
  rcases takeField_spec (k := 64) (by omega) hmsg rest 2 with ⟨t, ht, htstr, -⟩
  rcases takeField_spec (k := maxbufLen) (by decide) hmsg rest 3 with ⟨q, hq, hqstr, -⟩
  rw [← hbytes] at ht hq
  have ht₁ : takeField 64 recvMsg.bytes 3 = some t := ht
  have hq₁ : takeField maxbufLen recvMsg.bytes 4 = some q := hq
  refine ⟨{ tranCode := t, requestData := q }, by simp [parseFramed, ht₁, hq₁], ?_, ?_⟩
  · rw [htstr, List.take_take]
    rfl
  · rw [hqstr]
    exact take_desStrLen_take _

/-- Without a terminator the first look for a field leaves the array. -/
theorem parseFramed_none {recvMsg : Buf maxbufLen} (h : (0 : Byte) ∉ recvMsg.bytes) :
    parseFramed recvMsg = none := by
  simp [parseFramed, takeField, getStr, strlen_eq, h]

/-- A service name and a data packet are shorter than their arrays. -/
theorem parseFramed_fits {recvMsg : Buf maxbufLen} {req : Request}
    (h : parseFramed recvMsg = some req) :
    req.tranCode.str.length ≤ 63 ∧ (0 : Byte) ∈ req.requestData.bytes := by
  have hterm : (0 : Byte) ∈ recvMsg.bytes := by
    by_contra hmem
    simp [parseFramed_none hmem] at h
  rcases parseFramed_spec hterm with ⟨req', hreq', htran, hdata⟩
  have hsame : req = req' := Option.some.inj (h.symm.trans hreq')
  rw [← hsame] at htran hdata
  constructor
  · rw [htran, List.length_take]
    exact Nat.min_le_left _ _
  · apply Buf.zero_mem_of_length_str_lt
    rw [hdata, List.length_take]
    exact lt_of_le_of_lt (Nat.min_le_left _ _) (by decide)

/-- A peer that sends the frame at once. -/
def FramedReception.atOnce (body : List Byte) : FramedReception :=
  { stream := frame body
    head := [.data pkgheadLength]
    body := [.data body.length] }

theorem deliveredFrame_atOnce {body : List Byte} (hpos : 0 < body.length)
    (hlen : body.length < maxbufLen - pkgheadLength) :
    DeliveredFrame (FramedReception.atOnce body) body := by
  have hmax : maxbufLen = 10240 := rfl
  have hframe : (frame body).length = 8 + body.length := length_frame (by omega)
  have hsize : (sizeOfInt (body.length : Int)).toNat = body.length := toNat_sizeOfInt (by omega)
  refine ⟨rfl, ?_, ?_⟩
  · have hlong : 8 ≤ (frame body).length := by omega
    exact recvn_atOnce (Buf.zeroed 128) 0 8 (by decide) (by decide) (by decide) hlong
  · intro recvMsg
    have hread := recvn_atOnce recvMsg pkgheadLength (sizeOfInt body.length) (by omega)
      (by omega) (by omega) hsize.le
    rw [hsize] at hread
    exact hread

/-! ## Responses -/

/-- A frame that `send_msg` has room for is stored whole. -/
theorem snprintf_frame {body : List Byte} (hbody : (0 : Byte) ∉ body)
    (hlen : 8 + body.length < maxbufLen) :
    (snprintf (Buf.zeroed maxbufLen) (frame body)).str = frame body := by
  have hmax : maxbufLen = 10240 := rfl
  refine snprintf_str_of_lt _ ?_ (zero_not_mem_frame hbody)
  rw [length_frame (by omega)]
  exact hlen

/-- The slack of `comm_tux_tpcall` is enough for the header too, and the constant of `sendlen` counts
the separators. -/
theorem formatFramed_spec (ret : Int) {tranCode : Buf 64} {responseData : Buf maxbufLen}
    (htran : tranCode.str.length ≤ 63) (hdata : responseData.str.length ≤ maxbufLen - 100) :
    ∃ resp, formatFramed ret tranCode responseData = some resp ∧
      resp.respCode.str = respCodeOf ret ∧
      resp.sendMsg.str = frame (frameBody (respCodeOf ret) tranCode.str responseData.str) ∧
      resp.sendlen = 8 + (frameBody (respCodeOf ret) tranCode.str responseData.str).length := by
  have hmax : maxbufLen = 10240 := rfl
  have hhead : pkgheadLength = 8 := rfl
  rcases respCodeOf_clean ret with ⟨hcode, -, hone⟩
  rcases storeRespCode_spec hcode (by omega) with ⟨b, hb, hstr⟩
  let body := frameBody (respCodeOf ret) tranCode.str responseData.str
  have hbody : body.length = 4 + (respCodeOf ret).length + tranCode.str.length +
      responseData.str.length := length_frameBody _ _ _
  have hclean : (0 : Byte) ∉ body :=
    zero_not_mem_frameBody hcode tranCode.zero_not_mem_str responseData.zero_not_mem_str
  -- The three strings that `sendlen` adds up.
  have hcodeLen : strlen b.bytes = some (respCodeOf ret).length := by
    have hlt : b.str.length < 16 := by
      rw [hstr]
      omega
    rw [strlen_of_mem (Buf.zero_mem_of_length_str_lt hlt), ← hstr]
    rfl
  have htranLen : strlen tranCode.bytes = some tranCode.str.length :=
    strlen_of_mem (Buf.zero_mem_of_length_str_lt (by omega))
  have hdataLen : strlen responseData.bytes = some responseData.str.length :=
    strlen_of_mem (Buf.zero_mem_of_length_str_lt (by omega))
  have hsendlen : pkgheadLength + 4 + (respCodeOf ret).length + tranCode.str.length +
      responseData.str.length = 8 + body.length := by omega
  have hcount : ((8 + body.length : Nat) : Int) - pkgheadLength = body.length := by omega
  have htext : framedText body.length b.str tranCode.str responseData.str = frame body := by
    rw [hstr]
    rfl
  refine ⟨{ respCode := b
            sendMsg := snprintf (Buf.zeroed maxbufLen) (frame body)
            sendlen := 8 + body.length }, ?_, hstr, snprintf_frame hclean (by omega), rfl⟩
  simp only [formatFramed, hdataLen, hb, hcodeLen, htranLen, hsendlen, hcount, htext,
    Option.bind_eq_bind, Option.bind_some]
  rfl

/-- The timeout frame counts the separators of two fields that are empty. -/
theorem formatTimeout20160927_spec :
    ∃ resp, formatTimeout20160927 = some resp ∧
      resp.respCode.str = respcodeTimeout ∧
      resp.sendMsg.str = frame (frameBody respcodeTimeout [] []) ∧
      resp.sendlen = 8 + (frameBody respcodeTimeout [] []).length := by
  have hclean : (0 : Byte) ∉ respcodeTimeout := by decide
  rcases storeRespCode_spec hclean (by decide) with ⟨b, hb, hstr⟩
  have hcodeLen : strlen b.bytes = some 1 := by
    have hlt : b.str.length < 16 := by
      rw [hstr]
      decide
    rw [strlen_of_mem (Buf.zero_mem_of_length_str_lt hlt)]
    exact congrArg some (congrArg List.length hstr)
  have htext : framedTimeoutText 5 b.str = frame (frameBody respcodeTimeout [] []) := by
    rw [hstr]
    rfl
  refine ⟨{ respCode := b
            sendMsg := snprintf (Buf.zeroed maxbufLen) (frame (frameBody respcodeTimeout [] []))
            sendlen := 13 }, ?_, hstr, snprintf_frame (by decide) (by decide), rfl⟩
  rw [← htext]
  simp only [formatTimeout20160927, hb, hcodeLen, Option.bind_eq_bind, Option.bind_some]
  rfl

end CommServer

import CommServer.Src.LegacySpec

/-!
# Framing — the two generations of the protocol

A request `c$t$d` and the frame of `$c$t$d$` mean the same to `process_parse` and to
`process_parse_20160927` (`protocols_agree`): the header is one more field in front, the closing
separator adds nothing, and only the current function trims the service name.
-/

namespace CommServer
namespace Exchange

open CLib Text

section Fields

variable {code : List Byte} (hcode : dollar ∉ code) (tranCode data : List Byte)

include hcode

/-- Behind the code, the body of a frame reads like the unframed request. -/
theorem field_frame (i : Nat) :
    field [dollar] (frame (frameBody code tranCode data)) (i + 2) =
      field [dollar] (code ++ dollar :: (tranCode ++ dollar :: data)) (i + 1) := by
  have hheader : dollar ∉ zeroPadded 8 (frameBody code tranCode data).length := by
    intro hmem
    -- A header of digits holds no separator.
    exact absurd (isDigit_of_mem_zeroPadded hmem) (by decide)
  have hclose : tranCode ++ dollar :: (data ++ [dollar]) =
      (tranCode ++ dollar :: data) ++ [dollar] := by simp
  calc
    field [dollar] (frame (frameBody code tranCode data)) (i + 2)
        = field [dollar] (code ++ dollar :: (tranCode ++ dollar :: (data ++ [dollar]))) (i + 1) := by
          rw [frame_eq, frameBody]
          exact field_succ hheader _ _
    _ = field [dollar] (tranCode ++ dollar :: (data ++ [dollar])) i := field_succ hcode _ _
    _ = field [dollar] (tranCode ++ dollar :: data) i := by rw [hclose, field_append_self]
    _ = field [dollar] (code ++ dollar :: (tranCode ++ dollar :: data)) (i + 1) :=
          (field_succ hcode _ _).symm

end Fields

/-- What `process_parse_20160927` hands to `comm_tux_tpcall` for a frame received in full. -/
theorem called_of_deliveredFrame {rx : FramedReception} {body : List Byte}
    (h : DeliveredFrame rx body) (hbody : (0 : Byte) ∉ body)
    (hlen : body.length < maxbufLen - pkgheadLength) (cfg : CommSvrSocket) (o : TuxOutcome)
    (tx : List SendResult) :
    ∃ req, (processParse20160927 cfg rx o tx).request = some req ∧
      req.tranCode.str = (field [dollar] (frame body) 2).take 63 ∧
      req.requestData.str = (field [dollar] (frame body) 3).take desStrLen := by
  have hmax : maxbufLen = 10240 := rfl
  have hhead : pkgheadLength = 8 := rfl
  rcases receiveFrame_accepted h hlen with ⟨recvMsg, haccept, hblit⟩
  have hframe : (frame body).length = 8 + body.length := length_frame (by omega)
  obtain ⟨j, hj⟩ : ∃ j, maxbufLen - (frame body).length = j + 1 :=
    ⟨maxbufLen - (frame body).length - 1, by omega⟩
  -- The frame is shorter than the array, so zeros are left behind it.
  have hbytes : recvMsg.bytes = frame body ++ 0 :: List.replicate j 0 := by
    have hstored := ((Buf.blit_eq_some_iff _ _ _ _).1 hblit).2
    rw [List.take_zero, List.nil_append, Nat.zero_add, Buf.bytes_zeroed, List.drop_replicate,
      hj, List.replicate_succ] at hstored
    exact hstored
  have hstr : recvMsg.str = frame body :=
    Buf.str_of_bytes (zero_not_mem_frame hbody) _ hbytes
  have hterm : (0 : Byte) ∈ recvMsg.bytes := by simp [hbytes]
  rcases parseFramed_spec hterm with ⟨req, hreq, htran, hdata⟩
  refine ⟨req, ?_, hstr ▸ htran, hstr ▸ hdata⟩
  have hrun : processParse20160927 cfg rx o tx = parseReceived20160927 cfg recvMsg o tx := by
    simp [processParse20160927, haccept]
  rw [hrun, ← hreq]
  exact exchange_request parseFramed formatFramed cfg recvMsg o tx

/-- Both generations call Tuxedo for the same transaction: with the same data, and with the same
service name up to the blanks around it. -/
theorem protocols_agree (cfg : CommSvrSocket) (rx : Reception) (rxf : FramedReception)
    (o of : TuxOutcome) (tx txf : List SendResult) {c t d : List Byte} (hc : dollar ∉ c)
    (hc₀ : (0 : Byte) ∉ c) (ht₀ : (0 : Byte) ∉ t) (hd₀ : (0 : Byte) ∉ d)
    (hlen : (c ++ t ++ d).length < maxbufLen - 16)
    (hrx : Delivered cfg rx (c ++ dollar :: (t ++ dollar :: d)))
    (hrxf : DeliveredFrame rxf (frameBody c t d)) :
    ∃ req reqf, (processParse cfg rx o tx).request = some req ∧
      (processParse20160927 cfg rxf of txf).request = some reqf ∧
      req.requestData.str = reqf.requestData.str ∧
      req.tranCode.str = trim isBlank reqf.tranCode.str := by
  have hhead : pkgheadLength = 8 := rfl
  have hdollar : (0 : Byte) ≠ dollar := by decide
  simp only [List.length_append] at hlen
  have hmsg : (0 : Byte) ∉ c ++ dollar :: (t ++ dollar :: d) := by
    simp [hc₀, ht₀, hd₀, hdollar]
  have hbody : (0 : Byte) ∉ frameBody c t d := zero_not_mem_frameBody hc₀ ht₀ hd₀
  rcases hrx.called hmsg (by simp; omega) o tx with ⟨req, hreq, hasks⟩
  obtain ⟨reqf, hreqf, htran, hdata⟩ :=
    called_of_deliveredFrame hrxf hbody (by rw [length_frameBody]; omega) cfg of txf
  refine ⟨req, reqf, hreq, hreqf, ?_, ?_⟩
  · rw [hasks.requestData, hdata, ← field_frame hc]
  · rw [hasks.tranCode, htran, ← field_frame hc]

/-- The service `A` with the data `b$c`, in both generations. -/
theorem protocols_agree_sample :
    ∃ req reqf,
      (processParse CommSvrSocket.shipped
        (Reception.atOnce ([0x39] ++ dollar :: ([0x41] ++ dollar :: [0x62, dollar, 0x63])))
        (.returning 0 0 []) []).request = some req ∧
      (processParse20160927 CommSvrSocket.shipped
        (FramedReception.atOnce (frameBody [0x39] [0x41] [0x62, dollar, 0x63]))
        (.returning 0 0 []) []).request = some reqf ∧
      req.requestData.str = reqf.requestData.str ∧
      req.tranCode.str = trim isBlank reqf.tranCode.str :=
  protocols_agree _ _ _ _ _ _ _ (by decide) (by decide) (by decide) (by decide) (by decide)
    (delivered_atOnce (by decide) (by decide) (by decide))
    (deliveredFrame_atOnce (by decide) (by decide))

end Exchange
end CommServer

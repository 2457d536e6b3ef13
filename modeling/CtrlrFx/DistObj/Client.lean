import CtrlrFx.DistObj.Srvr

/-!
# The client's end

What `send` writes, and what it makes of the bytes that come back: the body of a response is
read as far as the size in its header says, and whichever response comes first is taken for
the answer.
-/

namespace CtrlrFx.DistObj
open Base Data Io

namespace DistObjSrvr

variable {σ : Type} {e : Endian}

/-- On a lossless port the whole packet is written. -/
theorem sendCmd_spec {d : DistObjSrvr σ} {packet : Buffer UInt8} (hl : d.port.Lossless)
    (hb : packet.Valid) (hlt : packet.unread.length < 2 ^ 31) (t : UInt8) :
    ∃ b p, sendCmd e d t packet = (0, b, { d with port := p }) ∧ p.Lossless ∧
      Port.Wrote d.port (PktHdr.encode e 0 t (UInt32.ofNat packet.unread.length) ++
        packet.unread) p := by
  have hav : packet.available = packet.unread.length := by
    rw [hb.length_unread, Buffer.available_of_le hb.pos_le]
  have h8 := PktHdr.length_encode e 0 t (UInt32.ofNat packet.unread.length)
  obtain ⟨w, hwn⟩ : ∃ w, d.port.writeN
      (PktHdr.encode e 0 t (UInt32.ofNat packet.unread.length)) = w := ⟨_, rfl⟩
  rcases (Port.writeN_spec d.port _).2 hl with ⟨hr, hw, hl⟩
  rw [hwn, h8, toInt32_of_lt _ (by decide) (by decide)] at hr
  rw [hwn] at hw hl
  rcases Port.writeBuf_spec w.2 hb with ⟨hret, hport⟩
  rcases (Port.writeN_spec w.2 packet.unread).2 hl with ⟨hr', hw', hl'⟩
  rw [hr', toInt32_of_lt _ (by omega) (by omega)] at hret
  rw [← hport] at hw' hl'
  refine ⟨(w.2.writeBuf packet).2.1, (w.2.writeBuf packet).2.2, ?_, hl', hw.trans hw'⟩
  rw [sendCmd, hav, hwn]
  dsimp only
  rw [hr, if_neg (by decide), hret, if_neg (by omega)]

/-- Two headers that have arrived are read one after the other. -/
theorem hdrs_read {p : Port} {hdr rspHdr got : List UInt8} (hp : p.pending = hdr ++ rspHdr ++ got)
    (hh : hdr.length = 8) (hr : rspHdr.length = 8) :
    ∃ q u, p.readN 8 = { ret := (8 : Nat), bytes := hdr, port := q } ∧
      q.readN 8 = { ret := (8 : Nat), bytes := rspHdr, port := u } ∧ u.pending = got ∧
        Port.Took p 16 u := by
  have hlen : p.pending.length = 16 + got.length := by
    rw [hp]
    simp only [List.length_append, hh, hr]
  rcases Port.readN_of_le (p := p) (n := 8) (by decide) (by decide) (by omega) with ⟨q, hq, ht⟩
  rw [hp, List.append_assoc, ← hh, List.take_left] at hq
  have hp1 : q.pending = rspHdr ++ got := by
    rw [ht.pending, hp, List.append_assoc, ← hh, List.drop_left]
  obtain ⟨u, hu, ht'⟩ := Port.readN_of_le (p := q) (n := 8) (by decide) (by decide)
    (by rw [hp1, List.length_append]; omega)
  rw [hp1, ← hr, List.take_left] at hu
  rw [hh] at hq
  rw [hr] at hu
  refine ⟨q, u, hq, hu, ?_, ht.trans ht' (by omega)⟩
  rw [ht'.pending, hp1, ← hr, List.drop_left]

/-- A response whose headers have arrived gives the result, and what has arrived of what the
object put. -/
theorem recvRsp_spec {d : DistObjSrvr σ} {rsp : Buffer UInt8} {hdr rspHdr body got : List UInt8}
    (hp : d.port.pending = hdr ++ rspHdr ++ got) (hg : got <+: body) (hh : hdr.length = 8)
    (hr : rspHdr.length = 8) (hsize : PktHdr.msgSize e hdr = UInt32.ofNat (8 + body.length))
    (hpos : rsp.pos = 0) (hfit : body.length ≤ rsp.capacity) (hlt : body.length + 8 < 2 ^ 32) :
    ∃ b p, recvRsp e d rsp = (NativeRep.value e (rspHdr.drop 4), b, { d with port := p }) ∧
      (body = [] → b = rsp) ∧ (body ≠ [] → b.Valid ∧ b.pos = 0 ∧ b.unread = got) ∧
      (got = body → Port.Took d.port d.port.pending.length p) := by
  have hlen : d.port.pending.length = 16 + got.length := by
    rw [hp]
    simp only [List.length_append, hh, hr]
  rcases hdrs_read hp hh hr with ⟨q, u, hq, hu, hp2, ht2⟩
  have hn : UInt32.ofNat (8 + body.length) - 8 = UInt32.ofNat body.length := by
    rw [UInt32.ofNat_add, UInt32.add_comm]
    exact UInt32.add_sub_cancel _ _
  have hnat : (UInt32.ofNat body.length).toNat = body.length := by
    rw [UInt32.toNat_ofNat']
    omega
  have h8 : ¬((8 : Nat) : Int) ≠ 8 := by decide
  by_cases hb : body = []
  · have hgot : got = [] := by
      apply List.eq_nil_of_prefix_nil
      rwa [← hb]
    refine ⟨rsp, u, ?_, fun _ ↦ rfl, fun hc ↦ absurd hb hc, fun _ ↦ ?_⟩
    · simp only [recvRsp, hq, hu, hsize, hb, if_neg h8, List.length_nil]
      rfl
    · rwa [hlen, hgot, List.length_nil]
  · have hne : UInt32.ofNat body.length ≠ 0 := by
      intro hc
      rw [hc] at hnat
      exact hb (List.eq_nil_of_length_eq_zero hnat.symm)
    obtain ⟨hstore, htb⟩ := Port.readBuf_spec (p := u) (b := rsp.setSize body.length)
      (by rw [Buffer.setSize, hpos]; exact Nat.zero_le _)
    have hroom : (rsp.setSize body.length).lim - (rsp.setSize body.length).pos = body.length := by
      rw [Buffer.setSize, hpos]
      rfl
    have hgl := hg.length_le
    rw [hroom, hp2, List.take_of_length_le hgl] at hstore
    rw [hroom, hp2] at htb
    refine ⟨(Port.store (rsp.setSize body.length) got).flip,
      (u.readBuf (rsp.setSize body.length)).1.port, ?_, fun hc ↦ absurd hc hb,
      fun _ ↦ ?_, ?_⟩
    · simp only [recvRsp, hq, hu, hsize, hn, if_neg h8, if_pos hne, hnat, hstore]
    · have hpos' : (rsp.setSize body.length).pos = 0 := hpos
      rcases Port.flip_store hpos' (Nat.le_trans hgl hfit) with ⟨hv, hun⟩
      exact ⟨hv, rfl, hun⟩
    · intro hgb
      have hle : body.length ≤ got.length := by rw [hgb]
      have := ht2.trans (htb (.inl hle)) (by omega)
      rwa [hlen, hgb]

/-- Where the headers do not arrive, the result is an error. -/
theorem recvRsp_of_short {d : DistObjSrvr σ} (h : d.port.pending.length < 16)
    (rsp : Buffer UInt8) : (recvRsp e d rsp).1 = -4 := by
  have h4 : ((8 : Nat) : Int) = 8 := rfl
  unfold recvRsp
  dsimp only
  by_cases h8 : 8 ≤ d.port.pending.length
  · obtain ⟨q, hq, ht⟩ := Port.readN_of_le (p := d.port) (n := 8) (by decide) (by decide) h8
    have hne : (q.readN 8).ret ≠ 8 := by
      apply Port.readN_ret_ne (by decide)
      rw [ht.pending, List.length_drop]
      omega
    rw [hq]
    dsimp only
    rw [if_neg (by decide), if_pos hne]
  · have hne : (d.port.readN 8).ret ≠ 8 := by
      apply Port.readN_ret_ne (by decide)
      omega
    rw [if_pos hne]

/-- Waiting for a response writes nothing. -/
theorem sent_recvRsp (d : DistObjSrvr σ) (rsp : Buffer UInt8) :
    (recvRsp e d rsp).2.2.port.sent = d.port.sent := by
  unfold recvRsp
  dsimp only
  split
  · exact Port.sent_readN _ _
  · split
    · exact (Port.sent_readN _ _).trans (Port.sent_readN _ _)
    · split
      · exact ((Port.sent_readBuf _ _).trans (Port.sent_readN _ _)).trans (Port.sent_readN _ _)
      · exact (Port.sent_readN _ _).trans (Port.sent_readN _ _)

/-! ### Bounds of a response -/

/-- Writing the command leaves what is to be read as it is. -/
theorem rd_sendCmd (d : DistObjSrvr σ) (t : UInt8) (packet : Buffer UInt8) :
    (sendCmd e d t packet).2.2.port.rd = d.port.rd := by
  unfold sendCmd
  dsimp only
  split
  · exact (Port.writeN_frame _ _).1
  · exact (Port.writeBuf_frame _ _).1.trans (Port.writeN_frame _ _).1

variable (e) in
/-- Message size of the response that comes next. -/
def rspMsgSize (d : DistObjSrvr σ) : Nat := (PktHdr.msgSize e (d.port.pending.take 8)).toNat

variable (e) in
/-- The command is written, and the two headers of a response come back. -/
def Arrives (d : DistObjSrvr σ) (t : UInt8) (packet : Buffer UInt8) : Prop :=
  0 ≤ (sendCmd e d t packet).1 ∧ 16 ≤ d.port.pending.length

variable (e) in
/-- The buffer into which `send` lets `read_n` read the body of the response, and the port. -/
def bodyRead (d : DistObjSrvr σ) (t : UInt8) (packet rsp : Buffer UInt8) :
    Option (Buffer UInt8 × Port) :=
  let w := sendCmd e d t packet
  if w.1 < 0 then none
  else
    let r := w.2.2.port.readN 8
    if r.ret ≠ 8 then none
    else
      let q := r.port.readN 8
      if q.ret ≠ 8 then none
      else
        let n := PktHdr.msgSize e r.bytes - 8
        if n ≠ 0 then some (rsp.setSize n.toNat, q.port) else none

/-- A body that is read replaces the response buffer, and otherwise it stays as it was. -/
theorem send_bodyRead (d : DistObjSrvr σ) (t : UInt8) (packet rsp : Buffer UInt8) :
    (send e d t packet rsp).2.2.1 =
      ((bodyRead e d t packet rsp).map fun b ↦ (b.2.readBuf b.1).2.flip).getD rsp := by
  unfold send bodyRead recvRsp
  dsimp only
  by_cases hw : (sendCmd e d t packet).1 < 0
  · rw [if_pos hw, if_pos hw]
    rfl
  · rw [if_neg hw, if_neg hw]
    dsimp only
    by_cases hr : ((sendCmd e d t packet).2.2.port.readN 8).ret ≠ 8
    · rw [if_pos hr, if_pos hr]
      rfl
    · rw [if_neg hr, if_neg hr]
      by_cases hq : (((sendCmd e d t packet).2.2.port.readN 8).port.readN 8).ret ≠ 8
      · rw [if_pos hq, if_pos hq]
        rfl
      · rw [if_neg hq, if_neg hq]
        split
        · rfl
        · rfl

/-- Nothing is read unless both headers arrive. -/
theorem bodyRead_of_not_arrives {d : DistObjSrvr σ} {t : UInt8} {packet : Buffer UInt8}
    (h : ¬Arrives e d t packet) (rsp : Buffer UInt8) : bodyRead e d t packet rsp = none := by
  unfold bodyRead
  dsimp only
  by_cases hw : (sendCmd e d t packet).1 < 0
  · rw [if_pos hw]
  · rw [if_neg hw]
    have hlt : d.port.pending.length < 16 := by
      apply Nat.lt_of_not_le
      intro hle
      exact h ⟨Int32.not_lt.mp hw, hle⟩
    have hpend : (sendCmd e d t packet).2.2.port.pending = d.port.pending :=
      congrArg Port.lead (rd_sendCmd d t packet)
    by_cases hle : 8 ≤ d.port.pending.length
    · obtain ⟨q, hq, hpast⟩ := Port.readN_of_le (p := (sendCmd e d t packet).2.2.port) (n := 8)
        (by decide) (by decide) (by rwa [hpend])
      have hne : (q.readN 8).ret ≠ 8 := by
        apply Port.readN_ret_ne (by decide)
        rw [hpast.pending, hpend, List.length_drop]
        omega
      rw [hq]
      dsimp only
      rw [if_neg (by decide), if_pos hne]
    · have hne : ((sendCmd e d t packet).2.2.port.readN 8).ret ≠ 8 := by
        apply Port.readN_ret_ne (by decide)
        rw [hpend]
        omega
      rw [if_pos hne]

/-- Where they do, a body is read unless the size is eight, up to the size less eight, as the
unsigned word it is computed in. -/
theorem bodyRead_of_arrives {d : DistObjSrvr σ} {t : UInt8} {packet : Buffer UInt8}
    (h : Arrives e d t packet) (rsp : Buffer UInt8) :
    (rspMsgSize e d = 8 ∧ bodyRead e d t packet rsp = none) ∨
      (rspMsgSize e d ≠ 8 ∧ ∃ n q, n = (rspMsgSize e d + (2 ^ 32 - 8)) % 2 ^ 32 ∧
        bodyRead e d t packet rsp = some (rsp.setSize n, q)) := by
  have hpend : (sendCmd e d t packet).2.2.port.pending = d.port.pending :=
    congrArg Port.lead (rd_sendCmd d t packet)
  have hlen := h.2
  obtain ⟨p, hp, hpast⟩ := Port.readN_of_le (p := (sendCmd e d t packet).2.2.port) (n := 8)
    (by decide) (by decide) (by rw [hpend]; omega)
  obtain ⟨q, hq, -⟩ := Port.readN_of_le (p := p) (n := 8) (by decide) (by decide)
    (by rw [hpast.pending, hpend, List.length_drop]; omega)
  have h8 : ¬((8 : Nat) : Int) ≠ 8 := by decide
  have hread : bodyRead e d t packet rsp =
      if PktHdr.msgSize e (d.port.pending.take 8) - 8 ≠ 0 then
        some (rsp.setSize (PktHdr.msgSize e (d.port.pending.take 8) - 8).toNat, q)
      else none := by
    simp only [bodyRead, if_neg (Int32.not_lt.mpr h.1), hp, hq, if_neg h8, hpend]
  have hsub : (PktHdr.msgSize e (d.port.pending.take 8) - 8).toNat =
      (rspMsgSize e d + (2 ^ 32 - 8)) % 2 ^ 32 := by
    rw [UInt32.toNat_sub, rspMsgSize, Nat.add_comm]
    rfl
  have hlt : rspMsgSize e d < 2 ^ 32 := UInt32.toNat_lt _
  rw [hread]
  by_cases hn : PktHdr.msgSize e (d.port.pending.take 8) - 8 = 0
  · left
    rw [hn] at hsub
    refine ⟨?_, if_neg (not_not.mpr hn)⟩
    have h0 : (0 : UInt32).toNat = 0 := rfl
    omega
  · right
    refine ⟨?_, _, q, hsub, if_pos hn⟩
    intro hs
    apply hn
    apply UInt32.toNat.inj
    rw [hsub, hs]
    rfl

variable (e) in
/-- The response is kept within the response buffer: its limit is set neither behind its end nor
before its position, where `read_n` would not stop; nothing is stored behind its end; and a
response that is too short or too long is refused, with an error and an empty buffer. -/
structure Bounded (d : DistObjSrvr σ) (t : UInt8) (packet rsp : Buffer UInt8) : Prop where
  lim : ∀ b q, bodyRead e d t packet rsp = some (b, q) → b.lim ≤ rsp.capacity
  pos : ∀ b q, bodyRead e d t packet rsp = some (b, q) → b.pos ≤ b.lim
  stores : ∀ b q, bodyRead e d t packet rsp = some (b, q) → (q.readBuf b).2.pos ≤ rsp.capacity
  refused : Arrives e d t packet →
    rspMsgSize e d < 8 ∨ rsp.capacity < rspMsgSize e d - 8 →
      (send e d t packet rsp).1 < 0 ∧ (send e d t packet rsp).2.2.1.unread = [] ∧
        bodyRead e d t packet rsp = none

theorem bounded_of_none {d : DistObjSrvr σ} {t : UInt8} {packet rsp : Buffer UInt8}
    (hnone : bodyRead e d t packet rsp = none)
    (hr : Arrives e d t packet → 8 ≤ rspMsgSize e d ∧ rspMsgSize e d - 8 ≤ rsp.capacity) :
    Bounded e d t packet rsp := by
  constructor
  · intro b q hq
    exact absurd (hnone.symm.trans hq) (Option.some_ne_none _).symm
  · intro b q hq
    exact absurd (hnone.symm.trans hq) (Option.some_ne_none _).symm
  · intro b q hq
    exact absurd (hnone.symm.trans hq) (Option.some_ne_none _).symm
  · intro ha hbad
    have := hr ha
    omega

theorem bounded_of_some {d : DistObjSrvr σ} {t : UInt8} {packet rsp : Buffer UInt8} {n : Nat}
    {q : Port} (hsome : bodyRead e d t packet rsp = some (rsp.setSize n, q))
    (hr : 8 ≤ rspMsgSize e d ∧ rspMsgSize e d - 8 ≤ rsp.capacity) (hp : rsp.pos ≤ n)
    (hn : n ≤ rsp.capacity) : Bounded e d t packet rsp := by
  constructor
  · intro b q' hq
    cases hsome.symm.trans hq
    exact hn
  · intro b q' hq
    cases hsome.symm.trans hq
    exact hp
  · intro b q' hq
    cases hsome.symm.trans hq
    rw [(Port.readBuf_spec hp).1]
    change rsp.pos + (q.pending.take (n - rsp.pos)).length ≤ rsp.capacity
    rw [List.length_take]
    omega
  · intro _ hbad
    omega

/-- The response of a command is kept within the buffer just when, if it arrives, its size is at
least that of its header and what exceeds it ends inside the buffer, at or behind the position. -/
theorem send_bounded_iff (d : DistObjSrvr σ) (t : UInt8) (packet rsp : Buffer UInt8) :
    Bounded e d t packet rsp ↔ (Arrives e d t packet →
      rspMsgSize e d = 8 ∨ (8 ≤ rspMsgSize e d ∧ rspMsgSize e d - 8 ≤ rsp.capacity ∧
        rsp.pos ≤ rspMsgSize e d - 8)) := by
  have hlt : rspMsgSize e d < 2 ^ 32 := UInt32.toNat_lt _
  constructor
  · intro hb ha
    rcases bodyRead_of_arrives ha rsp with ⟨h8, -⟩ | ⟨h8, n, q, hn, hq⟩
    · exact .inl h8
    · right
      have hfit : ¬(rspMsgSize e d < 8 ∨ rsp.capacity < rspMsgSize e d - 8) := by
        intro hbad
        exact absurd (hq.symm.trans (hb.refused ha hbad).2.2) (Option.some_ne_none _)
      have hpos : rsp.pos ≤ n := hb.pos _ _ hq
      omega
  · intro hfit
    by_cases ha : Arrives e d t packet
    · rcases bodyRead_of_arrives ha rsp with ⟨h8, hnone⟩ | ⟨h8, n, q, hn, hq⟩
      · apply bounded_of_none hnone
        intro _
        omega
      · rcases (hfit ha).resolve_left h8 with ⟨h1, h2, h3⟩
        exact bounded_of_some hq ⟨h1, h2⟩ (by omega) (by omega)
    · apply bounded_of_none (bodyRead_of_not_arrives ha rsp)
      intro h
      exact absurd h ha

/-- A client to which a response comes whose message size is less than that of its header. -/
def shortRspClient : DistObjSrvr Unit :=
  .create (.deliver [[magicC, magicX, 0, msgTypeRsp, 4, 0, 0, 0], List.replicate 8 0]) [] [] []

/-- A buffer of four bytes gets a limit of nearly `2 ^ 32`, up to which `read_n` goes on. -/
theorem send_not_bounded :
    (∃ q, bodyRead .little shortRspClient msgTypeCmd (.fixed [0]) (.fixed [0, 0, 0, 0]) =
      some ((Buffer.fixed [0, 0, 0, 0]).setSize 4294967292, q)) ∧
    ¬Bounded .little shortRspClient msgTypeCmd (.fixed [0]) (.fixed [0, 0, 0, 0]) := by
  have ha : Arrives .little shortRspClient msgTypeCmd (.fixed [0]) := by
    constructor
    · decide
    · decide
  have h4 : rspMsgSize .little shortRspClient = 4 := by decide
  constructor
  · rcases bodyRead_of_arrives ha (.fixed [0, 0, 0, 0]) with ⟨h8, -⟩ | ⟨-, n, q, hn, hq⟩
    · rw [h4] at h8
      cases h8
    · have hlim : (4 + (2 ^ 32 - 8)) % 2 ^ 32 = 4294967292 := by decide
      rw [h4, hlim] at hn
      refine ⟨q, ?_⟩
      rw [hq, hn]
  · intro hb
    have hnone := (hb.refused ha (.inl (by rw [h4]; decide))).2.2
    rcases bodyRead_of_arrives ha (.fixed [0, 0, 0, 0]) with ⟨h8, -⟩ | ⟨-, n, q, -, hq⟩
    · rw [h4] at h8
      cases h8
    · exact absurd (hq.symm.trans hnone) (Option.some_ne_none _)

end DistObjSrvr
end CtrlrFx.DistObj

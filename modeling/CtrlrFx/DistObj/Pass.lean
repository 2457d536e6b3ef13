import CtrlrFx.DistObj.Resync

/-!
# A pass of the server

What one pass of `run` reads, records and dispatches, for the lemmas about whole runs.
-/

namespace CtrlrFx.DistObj
open Base Data Io

/-- The command header in the first twelve bytes of a payload. -/
def CmdHdr.decode (e : Endian) (bs : List UInt8) : CmdHdr :=
  { msgId := NativeRep.value e (Block.read bs 0 4)
    tgtObj := NativeRep.value e (Block.read bs 4 4)
    operation := NativeRep.value e (Block.read bs 8 4) }

/-- A word of four bytes at an aligned place. -/
theorem get_word {e : Endian} {b : Buffer UInt8} {p : Nat} (old : UInt32) (hd : 4 ∣ p)
    (hl : b.lim ≤ b.capacity) (hr : p + 4 ≤ b.lim) :
    BufCodec.get e { buf := { b with pos := p }, good := true } old =
      (4, NativeRep.value e (Block.read b.mem p 4),
        { buf := { b with pos := p + 4 }, good := true }) := by
  have hup : roundUp 4 p = p := roundUp_of_dvd (by decide) hd
  have hraw := BufCodec.getRaw_of_le (b := { b with pos := p }) (n := 4)
    (by unfold Buffer.Width; omega) (.inl hd) hl (by dsimp only; rwa [hup])
  have hs : NativeRep.size UInt32 = 4 := rfl
  dsimp only at hraw
  rw [hup] at hraw
  simp only [BufCodec.get, hs, hraw, if_true]

/-- The dispatch that the payload of a command asks for. -/
def Dispatch.ofPayload (e : Endian) (payload : List UInt8) : Dispatch :=
  { hdr := CmdHdr.decode e payload, param := payload.drop 12 }

/-- A response has the byte order of the packet it answers. -/
theorem PktHdr.store_rsp {e : Endian} {h : PktHdr} {bo t : UInt8} {n m : UInt32}
    (hh : h.bytes = encode e bo t n) :
    ((h.store 3 [msgTypeRsp]).store 4 (NativeRep.bytes e m)).bytes =
      encode e bo msgTypeRsp m := by
  have hl : (encode e bo t n).length = 8 := hh ▸ h.size_eq
  have hm : (NativeRep.bytes e m).length = 4 := NativeRep.length_bytes e m
  have h3 : (h.store 3 [msgTypeRsp]).bytes =
      [magicC, magicX, bo, msgTypeRsp] ++ NativeRep.bytes e n := by
    change Block.write h.bytes 3 [msgTypeRsp] = _
    rw [hh, Block.write_eq _ _ _ (by rw [hl]; decide)]
    rfl
  change Block.write (h.store 3 [msgTypeRsp]).bytes 4 (NativeRep.bytes e m) = _
  have hn : (NativeRep.bytes e n).length = 4 := NativeRep.length_bytes e n
  rw [h3, Block.write_eq _ _ _ (by rw [List.length_append, hm, hn]; exact Nat.le_refl 8), hm,
    List.drop_eq_nil_of_le (by rw [List.length_append, hn]; exact Nat.le_refl 8), List.append_nil]
  rfl

namespace Run

variable {σ : Type} (e : Endian)

/-- The payload of a packet, as far as the command buffer and the stream go. -/
theorem readPayload_spec {s : Run σ} {n : Nat} (he : s.srvr.port.Ended)
    (hn : n = min (PktHdr.msgSize e s.pktHdr.bytes).toNat s.srvr.cmdBuf.capacity) :
    (s.readPayload e).1.good = true ∧ (s.readPayload e).1.buf.pos = 0 ∧
      (s.readPayload e).1.buf.lim = min n s.srvr.port.pending.length ∧
      (s.readPayload e).1.buf.capacity = s.srvr.cmdBuf.capacity ∧
      (s.readPayload e).1.buf.unread = s.srvr.port.pending.take n ∧
      Port.Past s.srvr.port (min n s.srvr.port.pending.length) (s.readPayload e).2 := by
  obtain ⟨hb, ht⟩ := Port.readBuf_spec
    (b := s.srvr.cmdBuf.clearTo (PktHdr.msgSize e s.pktHdr.bytes).toNat) (Nat.zero_le _)
  replace ht := ht (.inr he)
  have hlim : (s.srvr.cmdBuf.clearTo (PktHdr.msgSize e s.pktHdr.bytes).toNat).lim -
      (s.srvr.cmdBuf.clearTo (PktHdr.msgSize e s.pktHdr.bytes).toNat).pos = n :=
    (Buffer.lim_clearTo _ _).trans hn.symm
  rw [hlim] at hb ht
  have hlen : (s.srvr.port.pending.take n).length = min n s.srvr.port.pending.length :=
    List.length_take
  have hcap : n ≤ s.srvr.cmdBuf.mem.length := hn ▸ Nat.min_le_right _ _
  have hbuf : (s.readPayload e).1.buf = (Port.store (s.srvr.cmdBuf.clearTo
      (PktHdr.msgSize e s.pktHdr.bytes).toNat) (s.srvr.port.pending.take n)).flip.rewind := by
    simp only [readPayload, hb, BufCodec.rewind]
  refine ⟨rfl, rfl, ?_, ?_, ?_, ht.past⟩
  · rw [hbuf]
    exact (Nat.zero_add _).trans hlen
  · rw [hbuf]
    exact Block.length_write _ _ _
  · rw [hbuf]
    exact (Port.flip_store (b := s.srvr.cmdBuf.clearTo
      (PktHdr.msgSize e s.pktHdr.bytes).toNat) rfl (by rw [Buffer.capacity_clearTo]; omega)).2

/-- The three gets of a payload that holds a command header. -/
theorem getCmdHdr_spec {b : Buffer UInt8} (h : CmdHdr) (hp : b.pos = 0) (hl : b.lim ≤ b.capacity)
    (h12 : 12 ≤ b.lim) :
    getCmdHdr e { buf := b, good := true } h =
      (CmdHdr.decode e b.unread, { buf := { b with pos := 12 }, good := true }) := by
  have hread (i : Nat) (hi : i + 4 ≤ 12) : Block.read b.unread i 4 = Block.read b.mem i 4 := by
    have hu : b.unread = b.mem.take b.lim := by
      rw [Buffer.unread, hp]
      rfl
    rw [hu, Block.read_take _ _ _ _ (by omega)]
  have h1 := get_word (e := e) (b := b) (p := 0) h.msgId (by decide) hl (by omega)
  have h2 := get_word (e := e) (b := b) (p := 4) h.tgtObj (by decide) hl (by omega)
  have h3 := get_word (e := e) (b := b) (p := 8) h.operation (by decide) hl (by omega)
  have hb : ({ b with pos := 0 } : Buffer UInt8) = b := by rw [← hp]
  rw [hb] at h1
  unfold getCmdHdr
  simp only [h1, h2, h3, CmdHdr.decode, hread 0 (by decide), hread 4 (by decide),
    hread 8 (by decide), Nat.zero_add, Nat.reduceAdd]

/-- A response changes what was written and its buffer, and the header that is sent. -/
theorem respond_spec (s : Run σ) (ret : Int32) :
    (s.respond e ret).hdrs = s.hdrs ∧ (s.respond e ret).calls = s.calls ∧
      (s.respond e ret).running = s.running ∧ (s.respond e ret).srvr.quit = s.srvr.quit ∧
      (s.respond e ret).srvr.cmdBuf = s.srvr.cmdBuf ∧
      (s.respond e ret).srvr.port.rd = s.srvr.port.rd ∧
      (s.respond e ret).srvr.port.taken = s.srvr.port.taken := by
  refine ⟨rfl, rfl, rfl, rfl, rfl, ?_⟩
  unfold respond
  dsimp only
  split
  · rw [(Port.writeBuf_frame _ _).1, (Port.writeBuf_frame _ _).2, (Port.writeN_frame _ _).1,
      (Port.writeN_frame _ _).2, (Port.writeN_frame _ _).1, (Port.writeN_frame _ _).2]
    exact ⟨rfl, rfl⟩
  · rw [(Port.writeN_frame _ _).1, (Port.writeN_frame _ _).2, (Port.writeN_frame _ _).1,
      (Port.writeN_frame _ _).2]
    exact ⟨rfl, rfl⟩

theorem capacity_respond (s : Run σ) (ret : Int32) :
    (s.respond e ret).srvr.rspBuf.capacity = s.srvr.rspBuf.capacity := by
  unfold respond
  dsimp only
  split
  · rw [Port.capacity_writeBuf, Buffer.capacity_flip]
  · rfl

/-- What the server does with the packet whose header it took: it consumes the payload as far
as its buffer goes. -/
structure Served (s s' : Run σ) : Prop where
  port : Port.Consumed s.srvr.port (min (min (PktHdr.msgSize e s.pktHdr.bytes).toNat
    s.srvr.cmdBuf.capacity) s.srvr.port.pending.length) s'.srvr.port
  capacity : s'.srvr.cmdBuf.capacity = s.srvr.cmdBuf.capacity
  quit : s'.srvr.quit = s.srvr.quit
  running : s'.running = s.running
  hdrs : s'.hdrs = s.hdrs
  objReg : s'.srvr.objReg = s.srvr.objReg

theorem hdrs_serve (s : Run σ) : (s.serve e).hdrs = s.hdrs := by
  rw [serve]
  dsimp only
  split <;> rfl

theorem serve_spec {s : Run σ} (he : s.srvr.port.Ended) : Served e s (s.serve e) := by
  obtain ⟨-, -, -, hcap, -, hpast⟩ := readPayload_spec e he rfl
  rw [serve]
  dsimp only
  split
  · exact ⟨hpast.toConsumed, hcap, rfl, rfl, rfl, rfl⟩
  · refine ⟨hpast.toConsumed.congr ?_ ?_, ?_, rfl, rfl, rfl, rfl⟩
    · exact (respond_spec e _ _).2.2.2.2.2.1
    · exact (respond_spec e _ _).2.2.2.2.2.2
    · refine (DistObjRegistry.capacity_param_dispatch _ _ _ _ _ _).trans (Eq.trans ?_ hcap)
      simp only [getCmdHdr, BufCodec.capacity_get]

/-- Packets of other types are read and dropped. -/
theorem calls_serve_of_ne {s : Run σ} (ht : PktHdr.msgType s.pktHdr.bytes ≠ msgTypeCmd) :
    (s.serve e).calls = s.calls := by
  rw [serve]
  dsimp only
  rw [if_pos ht]

/-- Outcome of the dispatch of the packet whose header was taken. -/
def reply (s : Run σ) : Reply σ :=
  let c := s.readPayload e
  let h := getCmdHdr e c.1 s.cmdHdr
  s.srvr.objReg.dispatch h.1.tgtObj h.1.operation h.2
    (BufCodec.clear { buf := s.srvr.rspBuf, good := true }) s.objs

/-- A command that was received whole, and that holds a command header, is dispatched with what
it holds, and the response is written. -/
theorem serve_command {s : Run σ} {payload : List UInt8} (he : s.srvr.port.Ended)
    (ht : PktHdr.msgType s.pktHdr.bytes = msgTypeCmd)
    (hp : payload = s.srvr.port.pending.take (PktHdr.msgSize e s.pktHdr.bytes).toNat)
    (hlen : payload.length = (PktHdr.msgSize e s.pktHdr.bytes).toNat) (h12 : 12 ≤ payload.length)
    (hcap : payload.length ≤ s.srvr.cmdBuf.capacity) :
    ∃ b : Buffer UInt8, b.Valid ∧ b.pos = 12 ∧ b.unread = payload.drop 12 ∧
      s.reply e = s.srvr.objReg.dispatch (CmdHdr.decode e payload).tgtObj
          (CmdHdr.decode e payload).operation { buf := b, good := true }
          { buf := s.srvr.rspBuf.clear, good := true } s.objs ∧
        s.serve e = ({ s with
          cmdHdr := CmdHdr.decode e payload
          objs := (s.reply e).objs
          srvr := { s.srvr with
            cmdBuf := (s.reply e).param.buf
            rspBuf := (s.reply e).rsp.buf
            port := (s.readPayload e).2 }
          calls := s.calls ++ [Dispatch.ofPayload e payload] } : Run σ).respond e
            (s.reply e).ret := by
  have hsize : min (PktHdr.msgSize e s.pktHdr.bytes).toNat s.srvr.cmdBuf.capacity =
      payload.length := by omega
  obtain ⟨hgood, hpos, hlim, hcap', hun, -⟩ := readPayload_spec e he hsize.symm
  have htake : payload.length ≤ s.srvr.port.pending.length := by
    rw [hp, List.length_take]
    exact Nat.min_le_right _ _
  rw [Nat.min_eq_left htake] at hlim
  rw [hlen, ← hp] at hun
  have hc : (s.readPayload e).1 = { buf := (s.readPayload e).1.buf, good := true } := by
    rw [← hgood]
  have hget := getCmdHdr_spec e s.cmdHdr hpos (by omega) (by omega)
  rw [← hc, hun] at hget
  have hparam : ({ (s.readPayload e).1.buf with pos := 12 } : Buffer UInt8).unread =
      payload.drop 12 := by
    rw [← hun, Buffer.unread, Buffer.unread, hpos, Block.read, Block.read, List.drop_take,
      List.drop_drop]
    rfl
  have hreply : s.reply e = s.srvr.objReg.dispatch (CmdHdr.decode e payload).tgtObj
      (CmdHdr.decode e payload).operation
      { buf := { (s.readPayload e).1.buf with pos := 12 }, good := true }
      { buf := s.srvr.rspBuf.clear, good := true } s.objs := by
    rw [reply]
    dsimp only
    rw [hget]
    rfl
  refine ⟨{ (s.readPayload e).1.buf with pos := 12 }, ⟨by dsimp only; omega, ?_⟩, rfl, hparam,
    hreply, ?_⟩
  · change (s.readPayload e).1.buf.lim ≤ (s.readPayload e).1.buf.capacity
    omega
  · rw [hreply, serve]
    dsimp only
    rw [if_neg (not_not.mpr ht), hget, hparam]
    rfl

/-- Such a command is recorded as it was sent. -/
theorem calls_serve {s : Run σ} {payload : List UInt8} (he : s.srvr.port.Ended)
    (ht : PktHdr.msgType s.pktHdr.bytes = msgTypeCmd)
    (hp : payload = s.srvr.port.pending.take (PktHdr.msgSize e s.pktHdr.bytes).toNat)
    (hlen : payload.length = (PktHdr.msgSize e s.pktHdr.bytes).toNat) (h12 : 12 ≤ payload.length)
    (hcap : payload.length ≤ s.srvr.cmdBuf.capacity) :
    (s.serve e).calls = s.calls ++ [Dispatch.ofPayload e payload] := by
  obtain ⟨_, -, -, -, -, hs⟩ := serve_command e he ht hp hlen h12 hcap
  rw [hs]
  exact (respond_spec e _ _).2.1

/-- On a lossless port the response is the header with type and size replaced, the command's
id, the result and what the object put. -/
theorem respond_wrote {s : Run σ} (ret : Int32) (hl : s.srvr.port.Lossless)
    (hv : s.srvr.rspBuf.Valid) (hlt : s.srvr.rspBuf.pos + 8 < 2 ^ 32) :
    Port.Wrote s.srvr.port
        (((s.pktHdr.store 3 [msgTypeRsp]).store 4
          (NativeRep.bytes e (UInt32.ofNat (8 + s.srvr.rspBuf.pos)))).bytes ++
          (NativeRep.bytes e s.cmdHdr.msgId ++ NativeRep.bytes e ret) ++ s.srvr.rspBuf.written)
        (s.respond e ret).srvr.port ∧
      (s.respond e ret).srvr.port.Lossless := by
  have hav : s.srvr.rspBuf.flip.available = s.srvr.rspBuf.pos :=
    Buffer.available_of_le (Nat.zero_le _)
  have hpos : UInt32.ofNat (8 + s.srvr.rspBuf.pos) > 0 := by
    rw [gt_iff_lt, UInt32.lt_iff_toNat_lt, UInt32.toNat_ofNat', Nat.mod_eq_of_lt (by omega)]
    exact Nat.add_pos_left (by decide) _
  unfold respond
  dsimp only
  rw [hav, if_pos hpos, (Port.writeBuf_spec _ hv.flip).2, Buffer.unread_flip]
  obtain ⟨-, hw, hl⟩ := (Port.writeN_spec s.srvr.port _).2 hl
  obtain ⟨-, hx, hl⟩ := (Port.writeN_spec _ _).2 hl
  obtain ⟨-, hy, hl⟩ := (Port.writeN_spec _ _).2 hl
  exact ⟨(hw.trans hx).trans hy, hl⟩

/-! ### The whole pass -/

/-- The state in which a header was taken and the port left behind it. -/
def headed (s : Run σ) (h : PktHdr) (p : Port) : Run σ :=
  { s with
    pktHdr := h
    srvr := { s.srvr with port := p, quit := false }
    hdrs := s.hdrs ++ [(p.taken, h.bytes)] }

/-- The state in which the next pass has taken its header. -/
def atPacket (s : Run σ) (a : Entry) : Run σ :=
  let g := getPktHdr a.quit a.magic s.srvr.port s.pktHdr
  s.headed g.2.1 g.2.2

/-- The loop goes on and nobody has called `quit`. -/
structure Active (s : Run σ) : Prop where
  running : s.running = true
  quit : s.srvr.quit = false
  ended : s.srvr.port.Ended

theorem pass_of_stopped {s : Run σ} (h : s.running = false) (a : Entry) : s.pass e a = s := by
  rw [pass, h]
  exact if_pos rfl

theorem passes_of_stopped {s : Run σ} (h : s.running = false) (as : List Entry) :
    s.passes e as = s := by
  induction as with
  | nil => rfl
  | cons a as ih => rw [passes, pass_of_stopped e h, ih]

/-- Where the scan finds nothing, `run` returns. -/
theorem pass_none {s : Run σ} {a : Entry} (hs : s.Active) (ha : a.quit = false)
    (hf : found a.magic.snd s.srvr.port.pending = none) :
    (s.pass e a).running = false ∧ (s.pass e a).hdrs = s.hdrs ∧ (s.pass e a).calls = s.calls ∧
      (s.pass e a).srvr.port.sent = s.srvr.port.sent := by
  obtain ⟨h1, -, hpast⟩ := getPktHdr_none hs.ended hf s.pktHdr
  unfold pass
  simp only [hs.running, hs.quit, ha, Bool.not_true, Bool.false_eq_true, if_false, false_or, h1]
  exact ⟨rfl, rfl, rfl, hpast.sent⟩

/-- Where it finds a magic, the next six bytes are taken for the rest of the header. -/
theorem pass_some {s : Run σ} {a : Entry} {j : Nat} (hs : s.Active) (ha : a.quit = false)
    (hf : found a.magic.snd s.srvr.port.pending = some j)
    (hj : j < s.srvr.port.pending.length ∨ s.srvr.port.stops = []) :
    ∃ h p, s.atPacket a = s.headed h p ∧ s.pass e a = (s.headed h p).serve e ∧
      h = (s.pktHdr.store 0 [magicC, magicX]).store 2 ((s.srvr.port.pending.drop j).take 6) ∧
      Port.Past s.srvr.port (min (j + 6) s.srvr.port.pending.length) p := by
  obtain ⟨hh, hpast, h0, -⟩ := getPktHdr_some hs.ended hf s.pktHdr
  refine ⟨_, _, by rw [atPacket, ha], ?_, hh, hpast⟩
  unfold pass
  simp only [hs.running, hs.quit, ha, Bool.not_true, Bool.false_eq_true, if_false, false_or,
    h0 hj, headed]
  rfl

/-- Headers once recorded stay. -/
theorem hdrs_prefix_pass (s : Run σ) (a : Entry) : s.hdrs <+: (s.pass e a).hdrs := by
  unfold pass
  split
  · exact List.prefix_refl _
  · split
    · exact List.prefix_refl _
    · dsimp only
      split
      · exact List.prefix_refl _
      · rw [hdrs_serve]
        exact List.prefix_append _ _

theorem hdrs_prefix_passes (s : Run σ) (as : List Entry) : s.hdrs <+: (s.passes e as).hdrs := by
  induction as generalizing s with
  | nil => exact List.prefix_refl _
  | cons a as ih => exact (hdrs_prefix_pass e s a).trans (ih _)

end Run
end CtrlrFx.DistObj

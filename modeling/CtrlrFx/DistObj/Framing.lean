import CtrlrFx.DistObj.Pass

/-!
# Packet framing

Packets written back to back, and where `run` takes their headers from. The payload is read
as far as the command buffer goes; what exceeds it is left in the stream, where the next scan
goes through it.
-/

namespace CtrlrFx.DistObj
open Base Data Io

/-- A packet whose header gives the number of bytes that follow it. -/
structure Packet where
  byteOrder : UInt8
  msgType : UInt8
  payload : List UInt8
  length_lt : payload.length < 2 ^ 32

namespace Packet

/-- The first eight bytes of a packet. -/
def hdr (e : Endian) (p : Packet) : List UInt8 :=
  PktHdr.encode e p.byteOrder p.msgType (UInt32.ofNat p.payload.length)

/-- All bytes of a packet. -/
def bytes (e : Endian) (p : Packet) : List UInt8 := p.hdr e ++ p.payload

/-- The payload bytes that do not fit the command buffer. -/
def excess (cap : Nat) (p : Packet) : List UInt8 := p.payload.drop cap

theorem hdr_eq (e : Endian) (p : Packet) :
    p.hdr e = magicC :: magicX :: p.byteOrder :: p.msgType ::
      NativeRep.bytes e (UInt32.ofNat p.payload.length) := rfl

theorem length_hdr (e : Endian) (p : Packet) : (p.hdr e).length = 8 := by
  rw [hdr_eq]
  simp only [List.length_cons, NativeRep.length_bytes]
  rfl

theorem msgSize_hdr (e : Endian) (p : Packet) :
    (PktHdr.msgSize e (p.hdr e)).toNat = p.payload.length := by
  have hv : PktHdr.msgSize e (p.hdr e) = UInt32.ofNat p.payload.length :=
    NativeRep.value_bytes e _
  rw [hv]
  exact Nat.mod_eq_of_lt p.length_lt

end Packet

/-- The headers of packets that begin `n` bytes into a stream, with the number of bytes up to
the end of each. -/
def marks (e : Endian) (n : Nat) : List Packet → List (Nat × List UInt8)
  | [] => []
  | p :: ps => (n + 8, p.hdr e) :: marks e (n + (p.bytes e).length) ps

/-- What scans meet when the bytes `g` stand before these packets: nothing that passes for a
magic before each header, and no ghost at the end of the stream. -/
def Quiet (cap : Nat) (g : List UInt8) : List Packet → List Entry → Prop
  | [], as => Clean g ∧ ∀ a, as.head? = some a → ¬Ghost a.magic.snd g
  | p :: ps, as => Clean g ∧ Quiet cap (p.excess cap) ps as.tail

namespace Run

variable {σ : Type} (e : Endian)

/-- Whatever the scan finds is recorded. -/
theorem prefix_of_found {s : Run σ} {a : Entry} (as : List Entry) {j : Nat} (hs : s.Active)
    (hstop : s.srvr.port.stops = []) (ha : a.quit = false)
    (hf : found a.magic.snd s.srvr.port.pending = some j) :
    ∃ h, s.hdrs ++ [(s.srvr.port.taken + min (j + 6) s.srvr.port.pending.length, h)] <+:
      (s.passes e (a :: as)).hdrs := by
  obtain ⟨h, p, -, hpass, -, hpast⟩ := pass_some e hs ha hf (.inr hstop)
  have hh : (s.pass e a).hdrs = s.hdrs ++ [(p.taken, h.bytes)] := by
    rw [hpass, hdrs_serve]
    rfl
  have hpre := hdrs_prefix_passes e (s.pass e a) as
  rw [hh, hpast.taken] at hpre
  exact ⟨_, hpre⟩

/-- The header of a packet behind the bytes `g` is taken, and its payload comes next. -/
theorem pass_headed {s : Run σ} {a : Entry} {g rest : List UInt8} {p : Packet} (hs : s.Active)
    (hstop : s.srvr.port.stops = []) (ha : a.quit = false)
    (hp : s.srvr.port.pending = g ++ (p.bytes e ++ rest)) (hg : Clean g) :
    ∃ h q, s.atPacket a = s.headed h q ∧ s.pass e a = (s.headed h q).serve e ∧
      h.bytes = p.hdr e ∧
      Port.Past s.srvr.port (g.length + 8) q ∧ q.pending = p.payload ++ rest := by
  have h6 : ([p.byteOrder, p.msgType] ++
      NativeRep.bytes e (UInt32.ofNat p.payload.length)).length = 6 := by
    rw [List.length_append, NativeRep.length_bytes]
    rfl
  have h8 := p.length_hdr e
  have hdrop2 : s.srvr.port.pending.drop (g.length + 2) = [p.byteOrder, p.msgType] ++
      NativeRep.bytes e (UInt32.ofNat p.payload.length) ++ (p.payload ++ rest) := by
    rw [hp, List.drop_length_add_append, Packet.bytes, List.append_assoc]
    rfl
  have hdrop8 : s.srvr.port.pending.drop (g.length + 8) = p.payload ++ rest := by
    rw [hp, List.drop_length_add_append, Packet.bytes, List.append_assoc, ← h8, List.drop_left]
  have hlen : s.srvr.port.pending.length = g.length + 8 + (p.payload ++ rest).length := by
    rw [hp, Packet.bytes]
    simp only [List.length_append, h8]
    omega
  have hf : found a.magic.snd s.srvr.port.pending = some (g.length + 2) := by
    rw [hp]
    exact found_append _ hg _
  obtain ⟨h, q, hat, hpass, hh, hpast⟩ := pass_some e hs ha hf (.inr hstop)
  refine ⟨h, q, hat, hpass, ?_, ?_, ?_⟩
  · rw [hh, hdrop2, ← h6, List.take_left, PktHdr.store_complete _ h6]
    rfl
  · rwa [Nat.min_eq_left (by omega)] at hpast
  · rw [hpast.pending, Nat.min_eq_left (by omega), hdrop8]

/-- The server about to respond to a command, whose packet it has read to its end. -/
structure Dispatched (p : Packet) (s t : Run σ) (r : Reply σ) : Prop where
  port : Port.Past s.srvr.port (p.bytes e).length t.srvr.port
  cmdHdr : t.cmdHdr = CmdHdr.decode e p.payload
  pktHdr : t.pktHdr.bytes = p.hdr e
  objs : t.objs = r.objs
  rspBuf : t.srvr.rspBuf = r.rsp.buf
  cmd : t.srvr.cmdBuf.capacity = s.srvr.cmdBuf.capacity
  objReg : t.srvr.objReg = s.srvr.objReg
  running : t.running = s.running
  quit : t.srvr.quit = false

/-- One pass over a command that fits: its object is called with what it holds, and the outcome
is sent. -/
theorem pass_command {s : Run σ} {a : Entry} {p : Packet} {rest : List UInt8} (hs : s.Active)
    (hstop : s.srvr.port.stops = []) (ha : a.quit = false)
    (hp : s.srvr.port.pending = p.bytes e ++ rest) (ht : p.msgType = msgTypeCmd)
    (h12 : 12 ≤ p.payload.length) (hcap : p.payload.length ≤ s.srvr.cmdBuf.capacity) :
    ∃ (b : Buffer UInt8) (t : Run σ), b.Valid ∧ b.pos = 12 ∧ b.unread = p.payload.drop 12 ∧
      (s.atPacket a).reply e = s.srvr.objReg.dispatch (CmdHdr.decode e p.payload).tgtObj
        (CmdHdr.decode e p.payload).operation { buf := b, good := true }
        { buf := s.srvr.rspBuf.clear, good := true } s.objs ∧
      Dispatched e p s t ((s.atPacket a).reply e) ∧
      s.pass e a = t.respond e ((s.atPacket a).reply e).ret := by
  obtain ⟨h, q, hat, hpass, hhdr, hq, hpend⟩ := pass_headed (g := []) e hs hstop ha hp
    (clean_of_length_le (Nat.zero_le _))
  have hended : (s.headed h q).srvr.port.Ended := hq.ended hs.ended
  have hhb : (s.headed h q).pktHdr.bytes = p.hdr e := hhdr
  have hport : (s.headed h q).srvr.port.pending = p.payload ++ rest := hpend
  have hsize : (PktHdr.msgSize e (s.headed h q).pktHdr.bytes).toNat = p.payload.length := by
    rw [hhb, Packet.msgSize_hdr]
  obtain ⟨b, hb, hpos, hu, hreply, hserve⟩ := serve_command e hended (by rw [hhb, ← ht]; rfl)
    (by rw [hsize, hport, List.take_left]) hsize.symm h12 hcap
  rw [hat]
  refine ⟨b, _, hb, hpos, hu, hreply, ?_, hpass.trans hserve⟩
  obtain ⟨-, -, -, -, -, hread⟩ := readPayload_spec e hended rfl
  have hmin : min (min (PktHdr.msgSize e (s.headed h q).pktHdr.bytes).toNat
      (s.headed h q).srvr.cmdBuf.capacity) (s.headed h q).srvr.port.pending.length =
        p.payload.length := by
    have hc : (s.headed h q).srvr.cmdBuf.capacity = s.srvr.cmdBuf.capacity := rfl
    rw [hsize, hport, List.length_append]
    omega
  rw [hmin] at hread
  have hcmd := (serve_spec e hended).capacity
  rw [hserve] at hcmd
  constructor
  · rw [Packet.bytes, List.length_append, p.length_hdr]
    exact hq.trans hread
  · rfl
  · exact hhdr
  · rfl
  · rfl
  · exact hcmd
  · rfl
  · rfl
  · rfl

/-- A header taken behind the bytes `g`, and the payload as far as the buffer goes. -/
theorem pass_packet {s : Run σ} {a : Entry} {g rest : List UInt8} {p : Packet} (hs : s.Active)
    (hstop : s.srvr.port.stops = []) (ha : a.quit = false)
    (hp : s.srvr.port.pending = g ++ (p.bytes e ++ rest)) (hg : Clean g) :
    (s.pass e a).Active ∧ (s.pass e a).srvr.port.stops = [] ∧
      (s.pass e a).srvr.port.pending = p.excess s.srvr.cmdBuf.capacity ++ rest ∧
      (s.pass e a).srvr.port.taken + (p.excess s.srvr.cmdBuf.capacity).length =
        s.srvr.port.taken + g.length + (p.bytes e).length ∧
      (s.pass e a).hdrs = s.hdrs ++ [(s.srvr.port.taken + g.length + 8, p.hdr e)] ∧
      (s.pass e a).srvr.cmdBuf.capacity = s.srvr.cmdBuf.capacity := by
  obtain ⟨h, q, -, hpass, hhdr, hq, hpend⟩ := pass_headed e hs hstop ha hp hg
  have h8 := p.length_hdr e
  have hserve := serve_spec e (s := s.headed h q) (hq.ended hs.ended)
  rw [← hpass] at hserve
  have hport := hserve.port
  have hcap := hserve.capacity
  have hquit := hserve.quit
  have hrun := hserve.running
  have hhdrs := hserve.hdrs
  simp only [headed, hhdr, p.msgSize_hdr, hpend, hq.taken] at hport hcap hquit hrun hhdrs
  have hmin : min (min p.payload.length s.srvr.cmdBuf.capacity) (p.payload ++ rest).length =
      min p.payload.length s.srvr.cmdBuf.capacity := by
    rw [List.length_append]
    omega
  refine ⟨⟨hrun.trans hs.running, hquit, hport.ended (hq.ended hs.ended)⟩,
    hport.stops (hq.stops hstop), ?_, ?_, hhdrs, hcap⟩
  · rw [hport.pending, hmin, hpend, List.drop_append_of_le_length (Nat.min_le_left _ _),
      Packet.excess, List.drop_eq_drop_min (i := s.srvr.cmdBuf.capacity), Nat.min_comm]
  · rw [hport.taken, hmin, hq.taken, Packet.excess, List.length_drop, Packet.bytes,
      List.length_append, h8]
    omega

/-- `run` takes the headers of the packets just when every scan is quiet. -/
theorem hdrs_eq_marks_iff {s : Run σ} {g : List UInt8} {ps : List Packet} {as : List Entry}
    (hs : s.Active) (hstop : s.srvr.port.stops = []) (ha : ∀ a ∈ as, a.quit = false)
    (hp : s.srvr.port.pending = g ++ (ps.map (Packet.bytes e)).flatten)
    (hend : (s.passes e as).running = false) :
    (s.passes e as).hdrs = s.hdrs ++ marks e (s.srvr.port.taken + g.length) ps ↔
      Quiet s.srvr.cmdBuf.capacity g ps as := by
  induction ps generalizing s g as with
  | nil =>
    cases as with
    | nil => exact absurd (hs.running.symm.trans hend) (by decide)
    | cons a as =>
      have haq := ha a (List.mem_cons_self ..)
      rw [List.map_nil, List.flatten_nil, List.append_nil] at hp
      have hq : Quiet s.srvr.cmdBuf.capacity g [] (a :: as) ↔ found a.magic.snd g = none := by
        rw [found_eq_none_iff, Quiet]
        simp
      rw [hq, marks, List.append_nil]
      constructor
      · intro hh
        by_contra hf
        obtain ⟨j, hj⟩ := Option.ne_none_iff_exists'.mp hf
        obtain ⟨h, hpre⟩ := prefix_of_found e as hs hstop haq (by rwa [hp])
        rw [hh] at hpre
        have := hpre.length_le
        rw [List.length_append, List.length_singleton] at this
        omega
      · intro hf
        obtain ⟨hr, hh, -⟩ := pass_none e hs haq (by rwa [hp])
        rw [passes, passes_of_stopped e hr, hh]
  | cons p ps ih =>
    cases as with
    | nil => exact absurd (hs.running.symm.trans hend) (by decide)
    | cons a as =>
      have haq := ha a (List.mem_cons_self ..)
      rw [List.map_cons, List.flatten_cons] at hp
      rw [marks, Quiet, List.tail_cons]
      by_cases hg : Clean g
      · obtain ⟨hs', hstop', hp', ht', hh', hc'⟩ := pass_packet e hs hstop haq hp hg
        have := ih hs' hstop' (fun b hb ↦ ha b (List.mem_cons_of_mem _ hb)) hp' hend
        rw [ht', hh', hc', List.append_assoc, List.singleton_append] at this
        rw [passes, this]
        exact (and_iff_right hg).symm
      · refine iff_of_false (fun hh ↦ ?_) fun hq ↦ hg hq.1
        obtain ⟨j, -, hj, hf⟩ := found_of_not_clean a.magic.snd hg
          (p.bytes e ++ (ps.map (Packet.bytes e)).flatten)
        obtain ⟨h, hpre⟩ := prefix_of_found e as hs hstop haq (by rwa [hp])
        rw [hh, List.prefix_append_right_inj, List.cons_prefix_cons] at hpre
        have := congrArg Prod.fst hpre.1
        dsimp only at this
        omega

/-- The scans are quiet when every excess is clean and the last one leaves no ghost. -/
theorem quiet_iff {cap : Nat} {g : List UInt8} {ps : List Packet} {as : List Entry} :
    Quiet cap g ps as ↔ Clean g ∧ (∀ p ∈ ps, Clean (p.excess cap)) ∧
      ∀ a, as[ps.length]? = some a →
        ¬Ghost a.magic.snd ((ps.getLast?.map (Packet.excess cap)).getD g) := by
  induction ps generalizing g as with
  | nil => simp [Quiet, List.head?_eq_getElem?]
  | cons p ps ih =>
    have hlast : ((p :: ps).getLast?.map (Packet.excess cap)).getD g =
        (ps.getLast?.map (Packet.excess cap)).getD (p.excess cap) := by
      rw [List.getLast?_cons]
      cases ps.getLast? <;> rfl
    rw [Quiet, ih, hlast, List.forall_mem_cons, List.length_cons, List.getElem?_tail, and_assoc]

/-- `run` returns from a stream that ends: every pass that goes on consumes a byte. -/
theorem running_passes {s : Run σ} {as : List Entry} (hs : s.Active)
    (hstop : s.srvr.port.stops = []) (ha : ∀ a ∈ as, a.quit = false)
    (hlen : s.srvr.port.pending.length < as.length) : (s.passes e as).running = false := by
  induction as generalizing s with
  | nil => exact absurd hlen (Nat.not_lt_zero _)
  | cons a as ih =>
    have haq := ha a (List.mem_cons_self ..)
    rw [passes]
    cases hf : found a.magic.snd s.srvr.port.pending with
    | none =>
      obtain ⟨hr, -, -⟩ := pass_none e hs haq hf
      rw [passes_of_stopped e hr, hr]
    | some j =>
      obtain ⟨h, q, -, hpass, -, hq⟩ := pass_some e hs haq hf (.inr hstop)
      have hserve := serve_spec e (s := s.headed h q) (hq.ended hs.ended)
      rw [← hpass] at hserve
      have hport := hq.toConsumed.trans hserve.port
      have hne : s.srvr.port.pending ≠ [] := fun hn ↦ by
        rw [hn] at hf
        cases hf
      have hpos := List.length_pos_iff.mpr hne
      rw [List.length_cons] at hlen
      refine ih ⟨hserve.running.trans hs.running, hserve.quit, hport.ended hs.ended⟩
        (hport.stops hstop) (fun b hb ↦ ha b (List.mem_cons_of_mem _ hb)) ?_
      rw [hport.pending, List.length_drop]
      omega

/-- From beginning to end, `run` takes the header of each of the packets written to it, and no
other, just when no excess of a payload holds an `'X'` behind a `'C'` at an odd offset or a
`'C'` with an `'X'` next to it, and the last one does not leave a ghost. -/
theorem run_framed_iff (d : DistObjSrvr σ) (h : PktHdr) (c : CmdHdr) (objs : σ)
    (ps : List Packet) (as : List Entry) (hq : d.quit = false) (ha : ∀ a ∈ as, a.quit = false)
    (hstop : d.port.stops = []) (hp : d.port.pending = (ps.map (Packet.bytes e)).flatten)
    (hend : ((start d h c objs).passes e as).running = false) :
    ((start d h c objs).passes e as).hdrs = marks e d.port.taken ps ↔
      (∀ p ∈ ps, Clean (p.excess d.cmdBuf.capacity)) ∧
        ∀ a p, as[ps.length]? = some a → ps.getLast? = some p →
          ¬Ghost a.magic.snd (p.excess d.cmdBuf.capacity) := by
  have hs : (start d h c objs).Active := ⟨rfl, hq, Port.ended_of_stops hstop⟩
  have := hdrs_eq_marks_iff e (g := []) hs hstop ha hp hend
  rw [quiet_iff] at this
  refine this.trans ((and_iff_right (clean_of_length_le (Nat.zero_le _))).trans
    (and_congr_right fun _ ↦ forall_congr' fun a ↦ ?_))
  cases hl : ps.getLast? with
  | none =>
    refine iff_of_true (fun _ hg ↦ Nat.zero_ne_one hg.1) fun p _ hp ↦ ?_
    cases hp
  | some p =>
    refine ⟨fun hg q ha hq ↦ ?_, fun hg ha ↦ hg p ha rfl⟩
    cases hq
    exact hg ha

/-- A packet whose last byte does not fit a buffer of four bytes and one without payload, in
three chunks. -/
theorem run_framed_iff_two :
    ((start (.create (.deliver [[67, 88, 0, 3, 5, 0], [0, 0, 1, 2, 3, 4, 5, 67, 88],
        [0, 3, 0, 0, 0, 0]]) [] [0, 0, 0, 0] [] : DistObjSrvr Unit) default default ()).passes
        .little (List.replicate 3 default)).hdrs =
      marks .little 0 [⟨0, 3, [1, 2, 3, 4, 5], by decide⟩, ⟨0, 3, [], by decide⟩] := by
  refine (run_framed_iff .little _ _ _ _ _ _ rfl ?_ rfl rfl (by decide)).mpr ⟨?_, ?_⟩
  · decide
  · intro p hp
    rcases List.mem_cons.mp hp with rfl | hp
    · exact clean_of_length_le (by decide)
    · rw [List.mem_singleton.mp hp]
      exact clean_of_length_le (by decide)
  · intro a p _ hp hg
    cases hp
    exact Nat.zero_ne_one hg.1

/-- Eight bytes of a payload that does not fit a buffer of four bytes are taken for a header. -/
theorem run_not_framed :
    ((start (.create (.deliver [[67, 88, 0, 3, 12, 0, 0, 0, 1, 2, 3, 4, 67, 88, 0, 3, 0, 0, 0, 0],
        [67, 88, 0, 3, 0, 0, 0, 0]]) [] [0, 0, 0, 0] [] : DistObjSrvr Unit) default default
        ()).passes .little (List.replicate 4 default)).running = false ∧
      ((start (.create (.deliver [[67, 88, 0, 3, 12, 0, 0, 0, 1, 2, 3, 4, 67, 88, 0, 3, 0, 0, 0, 0],
        [67, 88, 0, 3, 0, 0, 0, 0]]) [] [0, 0, 0, 0] [] : DistObjSrvr Unit) default default
        ()).passes .little (List.replicate 4 default)).hdrs ≠
      marks .little 0 [⟨0, 3, [1, 2, 3, 4, 67, 88, 0, 3, 0, 0, 0, 0], by decide⟩,
        ⟨0, 3, [], by decide⟩] := by
  decide

end Run
end CtrlrFx.DistObj

import CtrlrFx.Data.Buffer

/-!
# Byte ports

`src/io/net/Socket.cpp`, the `IDevice` a server talks through. What the other side has sent
arrives in chunks of any size, between which a read may find the end of the stream or an
error; a write is taken whole, in part or not at all. `readN` and `writeN` repeat the single
calls until everything has been transferred or one of them transfers nothing.
-/

namespace CtrlrFx.Io
open Base Data

/-- What a read finds: bytes, the end of the stream, or an error. -/
inductive Arrival where
  | chunk (b : UInt8) (bs : List UInt8)
  | eof
  | err
  deriving DecidableEq, Repr

/-- What a write finds: room for at most `k + 1` bytes, no room, or an error. -/
inductive Room where
  | upTo (k : Nat)
  | none
  | err
  deriving DecidableEq, Repr

/-- A connected port: what its reads and writes will find, what was written to it, and the
number of bytes read from it. After the last arrival it is at the end of the stream; after
the last room it takes everything. -/
structure Port where
  rd : List Arrival
  wr : List Room
  sent : List UInt8
  taken : Nat
  deriving DecidableEq, Repr

/-- Outcome of a read: the result, the bytes stored, and the port. -/
structure Got where
  ret : Int
  bytes : List UInt8
  port : Port
  deriving DecidableEq, Repr

namespace Port

/-- Most bytes the system transfers in one call, which an `int` holds. -/
def maxTransfer : Nat := 0x7ffff000

/-- Leaves the rest of a chunk for the next read. -/
def leave : List UInt8 → List Arrival → List Arrival
  | [], rd => rd
  | b :: bs, rd => .chunk b bs :: rd

/-- `TcpSocket::read`; `src/io/net/Socket.cpp:209–212`. -/
def read (p : Port) (n : Nat) : Got :=
  match p.rd with
  | [] => { ret := 0, bytes := [], port := p }
  | .eof :: rd => { ret := 0, bytes := [], port := { p with rd } }
  | .err :: rd => { ret := -1, bytes := [], port := { p with rd } }
  | .chunk b bs :: rd =>
    let out := (b :: bs).take (min n maxTransfer)
    { ret := out.length
      bytes := out
      port := { p with
        rd := leave ((b :: bs).drop (min n maxTransfer)) rd
        taken := p.taken + out.length } }

/-- The loop of `TcpSocket::read_n`, with the result of its last read. Every read but the last
stores something, so that `n` rounds are enough; `src/io/net/Socket.cpp:226–231`. -/
def readLoop : Nat → Nat → Port → Got
  | 0, _, p => { ret := 0, bytes := [], port := p }
  | k + 1, n, p =>
    if n = 0 then { ret := 0, bytes := [], port := p }
    else
      let r := p.read n
      if r.ret ≤ 0 then { r with bytes := [] }
      else
        let rs := readLoop k (n - r.bytes.length) r.port
        { rs with bytes := r.bytes ++ rs.bytes }

/-- `TcpSocket::read_n`; `src/io/net/Socket.cpp:219–234`. -/
def readN (p : Port) (n : Nat) : Got :=
  let r := readLoop n n p
  { r with ret := if r.bytes.length = 0 ∧ r.ret < 0 then r.ret else toInt32 r.bytes.length }

/-- Stores bytes that were read at the position of a buffer; `src/io/net/Socket.cpp:258–261`. -/
def store (b : Buffer UInt8) (bs : List UInt8) : Buffer UInt8 :=
  { b with mem := Block.write b.mem b.pos bs, pos := b.pos + bs.length }

/-- The loop of the `TcpSocket::read_n` that fills a buffer;
`src/io/net/Socket.cpp:257–263`. -/
def fillLoop : Nat → Buffer UInt8 → Port → Got × Buffer UInt8
  | 0, b, p => ({ ret := 0, bytes := [], port := p }, b)
  | k + 1, b, p =>
    if b.full then ({ ret := 0, bytes := [], port := p }, b)
    else
      let r := p.read b.available
      if r.ret ≤ 0 then ({ r with bytes := [] }, b)
      else
        let rs := fillLoop k (store b r.bytes) r.port
        ({ rs.1 with bytes := r.bytes ++ rs.1.bytes }, rs.2)

/-- `TcpSocket::read_n` into a buffer; `src/io/net/Socket.cpp:252–266`. -/
def readBuf (p : Port) (b : Buffer UInt8) : Got × Buffer UInt8 :=
  let r := fillLoop b.available b p
  ({ r.1 with
    ret := if r.1.bytes.length = 0 ∧ r.1.ret < 0 then r.1.ret else toInt32 r.1.bytes.length },
    r.2)

/-- `TcpSocket::write`; `src/io/net/Socket.cpp:283–286`. -/
def write (p : Port) (bs : List UInt8) : Int × Port :=
  match p.wr with
  | [] => ((bs.take maxTransfer).length, { p with sent := p.sent ++ bs.take maxTransfer })
  | .none :: wr => (0, { p with wr })
  | .err :: wr => (-1, { p with wr })
  | .upTo k :: wr =>
    let out := bs.take (min (k + 1) maxTransfer)
    (out.length, { p with wr, sent := p.sent ++ out })

/-- The loop of `TcpSocket::write_n`, with the result of its last write and the number of
bytes written; `src/io/net/Socket.cpp:299–304`. -/
def writeLoop : Nat → List UInt8 → Port → Int × Nat × Port
  | 0, _, p => (0, 0, p)
  | k + 1, bs, p =>
    if bs.length = 0 then (0, 0, p)
    else
      let r := p.write bs
      if r.1 ≤ 0 then (r.1, 0, r.2)
      else
        let rs := writeLoop k (bs.drop r.1.toNat) r.2
        (rs.1, r.1.toNat + rs.2.1, rs.2.2)

/-- `TcpSocket::write_n`; `src/io/net/Socket.cpp:292–307`. -/
def writeN (p : Port) (bs : List UInt8) : Int × Port :=
  let r := writeLoop bs.length bs p
  (if r.2.1 = 0 ∧ r.1 < 0 then r.1 else toInt32 r.2.1, r.2.2)

/-- The loop of the `TcpSocket::write_n` that empties a buffer;
`src/io/net/Socket.cpp:330–336`. -/
def drainLoop : Nat → Buffer UInt8 → Port → Int × Nat × Buffer UInt8 × Port
  | 0, b, p => (0, 0, b, p)
  | k + 1, b, p =>
    if b.full then (0, 0, b, p)
    else
      let r := p.write (Block.read b.mem b.pos b.available)
      if r.1 ≤ 0 then (r.1, 0, b, r.2)
      else
        let rs := drainLoop k { b with pos := b.pos + r.1.toNat } r.2
        (rs.1, r.1.toNat + rs.2.1, rs.2.2)

/-- `TcpSocket::write_n` from a buffer; `src/io/net/Socket.cpp:325–339`. -/
def writeBuf (p : Port) (b : Buffer UInt8) : Int × Buffer UInt8 × Port :=
  let r := drainLoop b.available b p
  (if r.2.1 = 0 ∧ r.1 < 0 then r.1 else toInt32 r.2.1, r.2.2)

/-! ### What is still to come -/

/-- Bytes that arrive before the next stop. -/
def lead : List Arrival → List UInt8
  | .chunk b bs :: rd => (b :: bs) ++ lead rd
  | _ => []

/-- Arrivals from the next stop on. -/
def tail : List Arrival → List Arrival
  | .chunk _ _ :: rd => tail rd
  | rd => rd

/-- Result of a read that finds no bytes. -/
def stopCode : List Arrival → Int
  | .err :: _ => -1
  | _ => 0

/-- Bytes that reads will deliver before they stop. -/
def pending (p : Port) : List UInt8 := lead p.rd

/-- What reads will find behind these bytes. -/
def stops (p : Port) : List Arrival := tail p.rd

/-- Number of bytes that arrive, behind stops too. -/
def count : List Arrival → Nat
  | .chunk _ bs :: rd => bs.length + 1 + count rd
  | _ :: rd => count rd
  | [] => 0

/-- Number of bytes still to come. -/
def coming (p : Port) : Nat := count p.rd

/-- Bytes that arrive, behind stops too. -/
def content : List Arrival → List UInt8
  | .chunk b bs :: rd => (b :: bs) ++ content rd
  | _ :: rd => content rd
  | [] => []

/-- A stream that, once stopped, delivers nothing more. -/
def Ended (p : Port) : Prop := ∀ a ∈ p.stops, a = .eof ∨ a = .err

/-- A port at which these bytes arrive, in these chunks, and then the stream ends. -/
def deliver (chunks : List (List UInt8)) : Port :=
  { rd := chunks.foldr leave [], wr := [], sent := [], taken := 0 }

/-- `k` bytes were read, or all there were when these are fewer; a port that had too few of
them has gone past the stop behind them. -/
structure Took (p : Port) (k : Nat) (p' : Port) : Prop where
  pending : p'.pending = p.pending.drop k
  taken : p'.taken = p.taken + min k p.pending.length
  stops : p'.stops = if k ≤ p.pending.length then p.stops else p.stops.tail
  wr : p'.wr = p.wr
  sent : p'.sent = p.sent

theorem lead_leave (bs : List UInt8) (rd : List Arrival) : lead (leave bs rd) = bs ++ lead rd := by
  cases bs <;> rfl

theorem tail_leave (bs : List UInt8) (rd : List Arrival) : tail (leave bs rd) = tail rd := by
  cases bs <;> rfl

theorem tail_of_lead {rd : List Arrival} (h : lead rd = []) : tail rd = rd := by
  cases rd with
  | nil => rfl
  | cons a rd => cases a <;> first | rfl | cases h

@[simp] theorem pending_deliver (chunks : List (List UInt8)) :
    (deliver chunks).pending = chunks.flatten := by
  change lead (chunks.foldr leave []) = _
  induction chunks with
  | nil => rfl
  | cons c chunks ih => rw [List.foldr_cons, lead_leave, ih, List.flatten_cons]

@[simp] theorem stops_deliver (chunks : List (List UInt8)) : (deliver chunks).stops = [] := by
  change tail (chunks.foldr leave []) = _
  induction chunks with
  | nil => rfl
  | cons c chunks ih => rw [List.foldr_cons, tail_leave, ih]

theorem length_content (rd : List Arrival) : (content rd).length = count rd := by
  induction rd with
  | nil => rfl
  | cons a rd ih =>
    cases a with
    | chunk b bs =>
      rw [content, count, List.length_append, List.length_cons, ih]
    | eof => exact ih
    | err => exact ih

theorem content_append (rd rd' : List Arrival) :
    content (rd ++ rd') = content rd ++ content rd' := by
  induction rd with
  | nil => rfl
  | cons a rd ih =>
    cases a with
    | chunk b bs => rw [List.cons_append, content, content, ih, List.append_assoc]
    | eof => exact ih
    | err => exact ih

theorem lead_prefix (rd : List Arrival) : lead rd <+: content rd := by
  induction rd with
  | nil => exact List.prefix_refl _
  | cons a rd ih =>
    cases a with
    | chunk b bs => exact (List.prefix_append_right_inj _).mpr ih
    | eof => exact List.nil_prefix
    | err => exact List.nil_prefix

/-- Behind a stop that ends the stream there are only stops. -/
theorem lead_of_stops {rd : List Arrival} (h : ∀ a ∈ rd, a = .eof ∨ a = .err) :
    lead rd = [] ∧ tail rd = rd := by
  cases rd with
  | nil => exact ⟨rfl, rfl⟩
  | cons a rd => obtain rfl | rfl := h a (List.mem_cons_self ..) <;> exact ⟨rfl, rfl⟩

namespace Took

theorem refl (p : Port) : Took p 0 p :=
  ⟨rfl, by simp, by simp, rfl, rfl⟩

theorem trans {p p' p'' : Port} {j k : Nat} (h : Took p j p') (h' : Took p' k p'')
    (hj : j ≤ p.pending.length) : Took p (j + k) p'' := by
  have hl : p'.pending.length = p.pending.length - j := by rw [h.pending, List.length_drop]
  refine ⟨?_, ?_, ?_, h'.wr.trans h.wr, h'.sent.trans h.sent⟩
  · rw [h'.pending, h.pending, List.drop_drop]
  · rw [h'.taken, h.taken, hl]
    omega
  · rw [h'.stops, h.stops, if_pos hj, hl]
    by_cases hk : k ≤ p.pending.length - j
    · rw [if_pos hk, if_pos (by omega)]
    · rw [if_neg hk, if_neg (by omega)]

theorem ended {p p' : Port} {k : Nat} (h : Took p k p') (he : p.Ended) : p'.Ended := by
  intro a ha
  rw [h.stops] at ha
  split at ha
  · exact he a ha
  · exact he a (List.mem_of_mem_tail ha)

theorem count_eq (rd : List Arrival) : count rd = (lead rd).length + count (tail rd) := by
  induction rd with
  | nil => rfl
  | cons a rd ih =>
    cases a with
    | chunk b bs =>
      rw [count, lead, tail, List.length_append, List.length_cons, ih]
      omega
    | eof => exact (Nat.zero_add _).symm
    | err => exact (Nat.zero_add _).symm

/-- Bytes that were read are no longer to come. -/
theorem coming {p p' : Port} {k : Nat} (h : Took p k p') (hk : k ≤ p.pending.length) :
    p'.coming + k = p.coming := by
  have hl : (lead p'.rd).length = p.pending.length - k := by
    rw [← List.length_drop, ← h.pending]
    rfl
  have hs : tail p'.rd = tail p.rd := h.stops.trans (if_pos hk)
  have hp : p.pending.length = (lead p.rd).length := rfl
  unfold Port.coming
  rw [count_eq p'.rd, count_eq p.rd, hl, hs]
  omega

/-- At the end of a stream without errors nothing is left to find. -/
theorem stops_nil {p p' : Port} {k : Nat} (h : Took p k p') (he : p.stops = []) :
    p'.stops = [] := by
  rw [h.stops, he]
  split <;> rfl

end Took

/-- `k` of the bytes that were there are gone, whether or not a stop was met. -/
structure Consumed (p : Port) (k : Nat) (p' : Port) : Prop where
  le : k ≤ p.pending.length
  pending : p'.pending = p.pending.drop k
  taken : p'.taken = p.taken + k
  ended : p.Ended → p'.Ended
  stops : p.stops = [] → p'.stops = []

/-- They were read, and nothing was written. -/
structure Past (p : Port) (k : Nat) (p' : Port) : Prop extends Consumed p k p' where
  wr : p'.wr = p.wr
  sent : p'.sent = p.sent

theorem Took.past {p p' : Port} {k : Nat} (h : Took p k p') :
    Past p (min k p.pending.length) p' := by
  refine ⟨⟨Nat.min_le_right _ _, ?_, h.taken, h.ended, h.stops_nil⟩, h.wr, h.sent⟩
  rw [h.pending, List.drop_eq_drop_min]

theorem Consumed.trans {p p' p'' : Port} {j k : Nat} (h : Consumed p j p')
    (h' : Consumed p' k p'') : Consumed p (j + k) p'' := by
  have hl := h'.le
  have hj := h.le
  rw [h.pending, List.length_drop] at hl
  refine ⟨by omega, ?_, ?_, h'.ended ∘ h.ended, h'.stops ∘ h.stops⟩
  · rw [h'.pending, h.pending, List.drop_drop]
  · rw [h'.taken, h.taken, Nat.add_assoc]

theorem Past.trans {p p' p'' : Port} {j k : Nat} (h : Past p j p') (h' : Past p' k p'') :
    Past p (j + k) p'' :=
  ⟨h.toConsumed.trans h'.toConsumed, h'.wr.trans h.wr, h'.sent.trans h.sent⟩

/-- A port that differs in what was written has the same bytes to come. -/
theorem Consumed.congr {p p' p'' : Port} {k : Nat} (h : Consumed p k p') (hr : p''.rd = p'.rd)
    (ht : p''.taken = p'.taken) : Consumed p k p'' := by
  have hp : p''.pending = p'.pending := congrArg lead hr
  have hs : p''.stops = p'.stops := congrArg tail hr
  exact ⟨h.le, hp.trans h.pending, ht.trans h.taken, fun he a ha ↦ h.ended he a (hs ▸ ha),
    fun he ↦ hs.trans (h.stops he)⟩

theorem ended_of_stops {p : Port} (h : p.stops = []) : p.Ended := by
  intro a ha
  rw [h] at ha
  cases ha

/-- A stream that has been read to its end. -/
theorem rd_of_consumed {p p' : Port} (h : Consumed p p.pending.length p') (hs : p.stops = []) :
    p'.rd = [] := by
  have hempty : p'.pending = [] := by rw [h.pending, List.drop_length]
  exact (tail_of_lead hempty).symm.trans (h.stops hs)

/-- What is read before the next stop is part of what is still to come. -/
theorem length_pending_le (p : Port) : p.pending.length ≤ p.coming := by
  unfold pending coming
  induction p.rd with
  | nil => exact Nat.le_refl _
  | cons a rd ih =>
    cases a with
    | chunk b bs =>
      rw [lead, count, List.length_append, List.length_cons]
      omega
    | eof => exact Nat.zero_le _
    | err => exact Nat.zero_le _

/-! ### Reads -/

/-- A read delivers some of the bytes that are there. -/
theorem read_spec {p : Port} {n : Nat} (hn : 0 < n) (hp : p.pending ≠ []) :
    ∃ k, 0 < k ∧ k ≤ n ∧ k ≤ p.pending.length ∧ (p.read n).ret = (k : Int) ∧
      (p.read n).bytes = p.pending.take k ∧ Took p k (p.read n).port := by
  obtain ⟨rd, wr, sent, taken⟩ := p
  cases rd with
  | nil => exact absurd rfl hp
  | cons a rd =>
    cases a with
    | eof => exact absurd rfl hp
    | err => exact absurd rfl hp
    | chunk b bs =>
      have hm : 0 < maxTransfer := by decide
      have hlen : ((b :: bs).take (min n maxTransfer)).length =
          min (min n maxTransfer) (bs.length + 1) := by
        rw [List.length_take, List.length_cons]
      have hpend : Port.pending ⟨.chunk b bs :: rd, wr, sent, taken⟩ = (b :: bs) ++ lead rd := rfl
      refine ⟨min (min n maxTransfer) (bs.length + 1), by omega, by omega, ?_, ?_, ?_, ?_⟩
      · rw [hpend, List.length_append, List.length_cons]
        omega
      · change (((b :: bs).take (min n maxTransfer)).length : Int) = _
        rw [hlen]
      · change (b :: bs).take (min n maxTransfer) = _
        rw [hpend, List.take_append_of_le_length (by rw [List.length_cons]; omega),
          List.take_eq_take_min, List.length_cons]
      · refine ⟨?_, ?_, ?_, rfl, rfl⟩
        · change lead (leave ((b :: bs).drop (min n maxTransfer)) rd) = _
          rw [lead_leave, hpend]
          by_cases hk : min n maxTransfer ≤ bs.length + 1
          · rw [Nat.min_eq_left hk, List.drop_append_of_le_length (by rwa [List.length_cons])]
          · rw [Nat.min_eq_right (Nat.le_of_not_le hk), List.drop_eq_nil_of_le
              (by rw [List.length_cons]; omega), ← List.length_cons, List.drop_left]
            rfl
        · change taken + ((b :: bs).take (min n maxTransfer)).length = taken + _
          rw [hlen, hpend, List.length_append, List.length_cons]
          omega
        · change tail (leave _ rd) = _
          rw [tail_leave, if_pos (by rw [hpend, List.length_append, List.length_cons]; omega)]
          rfl

/-- A read that finds no bytes goes past the stop. -/
theorem read_stop {p : Port} (n : Nat) (hp : p.pending = []) :
    p.read n = { ret := stopCode p.stops, bytes := [], port := { p with rd := p.stops.tail } } := by
  obtain ⟨rd, wr, sent, taken⟩ := p
  cases rd with
  | nil => rfl
  | cons a rd =>
    cases a with
    | eof => rfl
    | err => rfl
    | chunk b bs => cases hp

/-- At the end of a stream a read finds nothing and changes nothing. -/
theorem read_eof {p : Port} (n : Nat) (hp : p.pending = []) (hs : p.stops = []) :
    p.read n = { ret := 0, bytes := [], port := p } := by
  have hrd : p.rd = [] := (tail_of_lead hp).symm.trans hs
  rw [read, hrd]

theorem stopCode_le (rd : List Arrival) : stopCode rd ≤ 0 := by
  unfold stopCode
  split <;> decide

theorem length_read_le (p : Port) (n : Nat) : (p.read n).bytes.length ≤ n := by
  unfold read
  split
  · exact Nat.zero_le _
  · exact Nat.zero_le _
  · exact Nat.zero_le _
  · dsimp only
    rw [List.length_take]
    omega

/-- The loop delivers what was asked for, or all there was before a stop, which it then goes
past. -/
theorem readLoop_spec {k n : Nat} {p : Port} (hk : n ≤ k) :
    (readLoop k n p).bytes = p.pending.take n ∧
      (n ≤ p.pending.length ∨ p.Ended → Took p n (readLoop k n p).port) ∧
      (p.pending = [] → (readLoop k n p).ret = if n = 0 then 0 else stopCode p.stops) := by
  induction k generalizing n p with
  | zero =>
    obtain rfl := Nat.le_zero.mp hk
    exact ⟨rfl, fun _ ↦ Took.refl p, fun _ ↦ rfl⟩
  | succ k ih =>
    rw [readLoop]
    by_cases hn : n = 0
    · subst hn
      rw [if_pos rfl]
      exact ⟨rfl, fun _ ↦ Took.refl p, fun _ ↦ rfl⟩
    · rw [if_neg hn]
      by_cases hp : p.pending = []
      · simp only [read_stop n hp, if_pos (stopCode_le _), if_neg hn]
        refine ⟨by rw [hp, List.take_nil], ?_, fun _ ↦ trivial⟩
        intro h
        have he : p.Ended := h.resolve_left (by rw [hp, List.length_nil]; omega)
        obtain ⟨hl, ht⟩ := lead_of_stops fun a ha ↦ he a (List.mem_of_mem_tail ha)
        refine ⟨?_, ?_, ?_, rfl, rfl⟩
        · rw [hp, List.drop_nil]
          exact hl
        · rw [hp, List.length_nil, Nat.min_zero]
          rfl
        · rw [hp, List.length_nil, if_neg (by omega)]
          exact ht
      · obtain ⟨j, hj, hjn, hjl, hret, hb, ht⟩ := read_spec (Nat.pos_of_ne_zero hn) hp
        have hlen : (p.read n).bytes.length = j := by rw [hb, List.length_take]; omega
        have hl : (p.read n).port.pending.length = p.pending.length - j := by
          rw [ht.pending, List.length_drop]
        obtain ⟨hb', ht', -⟩ := @ih (n - j) (p.read n).port (by omega)
        have hadd : j + (n - j) = n := by omega
        simp only [hret, if_neg (by omega : ¬(j : Int) ≤ 0), hlen]
        refine ⟨?_, ?_, fun he ↦ absurd he hp⟩
        · rw [hb, hb', ht.pending, ← List.take_add, hadd]
        · intro h
          have := ht.trans (ht' (h.imp (fun hle ↦ by omega) ht.ended)) hjl
          rwa [hadd] at this

/-- `read_n` delivers what was asked for, or, at the end of the stream, all there was; a
result that is not positive says that there was nothing. -/
theorem readN_spec {p : Port} {n : Nat} (h : n ≤ p.pending.length ∨ p.Ended) :
    (p.readN n).bytes = p.pending.take n ∧ Took p n (p.readN n).port ∧
      (p.readN n).ret = if p.pending = [] ∧ n ≠ 0 then stopCode p.stops
        else toInt32 (min n p.pending.length : Nat) := by
  obtain ⟨hb, ht, hr⟩ := readLoop_spec (Nat.le_refl n)
  refine ⟨hb, ht h, ?_⟩
  simp only [readN, hb, List.length_take]
  by_cases hp : p.pending = []
  · rw [hr hp, hp, List.length_nil, Nat.min_zero]
    have h0 : toInt32 (0 : Nat) = 0 := rfl
    by_cases hn : n = 0
    · simp [hn]
    · have := stopCode_le p.stops
      have hc : ([] : List UInt8) = [] ∧ n ≠ 0 := ⟨rfl, hn⟩
      rw [if_neg hn, if_pos hc, h0]
      by_cases hs : stopCode p.stops < 0
      · rw [if_pos ⟨rfl, hs⟩]
      · rw [if_neg fun hc ↦ hs hc.2]
        omega
  · have hl : p.pending.length ≠ 0 := fun h0 ↦ hp (List.eq_nil_of_length_eq_zero h0)
    rw [if_neg (fun hc : p.pending = [] ∧ n ≠ 0 ↦ hp hc.1)]
    by_cases hn : n = 0
    · subst hn
      rw [Nat.zero_min]
      exact if_neg fun hc ↦ Int.lt_irrefl 0 hc.2
    · rw [if_neg (by omega)]

/-- A short read of at least one byte has a positive result unless there is nothing. -/
theorem readN_ret_pos_iff {p : Port} {n : Nat} (h : p.Ended) (h0 : 0 < n) (hn : n < 2 ^ 31) :
    0 < (p.readN n).ret ↔ p.pending ≠ [] := by
  rw [(readN_spec (n := n) (.inr h)).2.2]
  by_cases hp : p.pending = []
  · rw [if_pos ⟨hp, by omega⟩]
    exact ⟨fun hs ↦ absurd (stopCode_le p.stops) (by omega), fun hc ↦ absurd hp hc⟩
  · have hl : p.pending.length ≠ 0 := fun hl ↦ hp (List.eq_nil_of_length_eq_zero hl)
    rw [if_neg fun hc ↦ hp hc.1, toInt32_of_lt _ (by omega) (by omega)]
    exact ⟨fun _ ↦ hp, fun _ ↦ by omega⟩

/-- Bytes that are there are read as they are asked for. -/
theorem readN_of_le {p : Port} {n : Nat} (h0 : 0 < n) (hn : n < 2 ^ 31)
    (hle : n ≤ p.pending.length) :
    ∃ q, p.readN n = { ret := n, bytes := p.pending.take n, port := q } ∧ Took p n q := by
  obtain ⟨hb, ht, hr⟩ := readN_spec (p := p) (n := n) (.inl hle)
  have hp : p.pending ≠ [] := by
    intro hp
    rw [hp, List.length_nil] at hle
    omega
  rw [if_neg fun hc ↦ hp hc.1, Nat.min_eq_left hle, toInt32_of_lt _ (by omega) (by omega)] at hr
  exact ⟨(p.readN n).port, by rw [← hr, ← hb], ht⟩

/-- A read that comes up short says so. -/
theorem readN_ret_ne {p : Port} {n : Nat} (hn : n < 2 ^ 31) (hlt : p.pending.length < n) :
    (p.readN n).ret ≠ n := by
  have hb : (readLoop n n p).bytes = p.pending := by
    rw [(readLoop_spec (Nat.le_refl n)).1, List.take_of_length_le (Nat.le_of_lt hlt)]
  simp only [readN, hb]
  split
  · next h => omega
  · rw [toInt32_of_lt _ (by omega) (by omega)]
    omega

theorem store_store (b : Buffer UInt8) (xs ys : List UInt8) :
    store (store b xs) ys = store b (xs ++ ys) := by
  simp only [store, Block.write_append, List.length_append, Nat.add_assoc]

/-- Bytes that were stored from the begin of a buffer are unread when it is flipped. -/
theorem flip_store {b : Buffer UInt8} (hpos : b.pos = 0) {got : List UInt8}
    (hfit : got.length ≤ b.capacity) :
    (store b got).flip.Valid ∧ (store b got).flip.unread = got := by
  have hcap : b.capacity = b.mem.length := rfl
  constructor
  · refine ⟨Nat.zero_le _, ?_⟩
    change b.pos + got.length ≤ (Block.write b.mem b.pos got).length
    rw [Block.length_write, hpos]
    omega
  · have hw := Block.take_write_end b.mem 0 got (by omega)
    rw [List.take_zero, List.nil_append] at hw
    rw [Buffer.unread_flip]
    change (Block.write b.mem b.pos got).take (b.pos + got.length) = got
    rwa [hpos]

/-- Filling a buffer is reading as many bytes as it has room for. -/
theorem fillLoop_eq (k : Nat) (b : Buffer UInt8) (p : Port) (hb : b.pos ≤ b.lim) :
    fillLoop k b p = (readLoop k (b.lim - b.pos) p,
      store b (readLoop k (b.lim - b.pos) p).bytes) := by
  induction k generalizing b p with
  | zero => rfl
  | succ k ih =>
    rw [fillLoop, readLoop]
    by_cases hf : b.lim = b.pos
    · rw [if_pos (Buffer.full_iff.mpr hf), if_pos (by omega)]
      rfl
    · rw [if_neg (fun h ↦ hf (Buffer.full_iff.mp h)), Buffer.available_of_le hb,
        if_neg (by omega : ¬b.lim - b.pos = 0)]
      dsimp only
      split
      · rfl
      · have hl := length_read_le p (b.lim - b.pos)
        have hs : (store b (p.read (b.lim - b.pos)).bytes).lim -
            (store b (p.read (b.lim - b.pos)).bytes).pos =
              b.lim - b.pos - (p.read (b.lim - b.pos)).bytes.length := Nat.sub_add_eq ..
        have hle : (store b (p.read (b.lim - b.pos)).bytes).pos ≤
            (store b (p.read (b.lim - b.pos)).bytes).lim := by
          dsimp only [store]
          omega
        rw [ih _ _ hle, hs, store_store]

/-- A buffer is filled with what comes next, as far as it goes. -/
theorem readBuf_spec {p : Port} {b : Buffer UInt8} (hb : b.pos ≤ b.lim) :
    (p.readBuf b).2 = store b (p.pending.take (b.lim - b.pos)) ∧
      (b.lim - b.pos ≤ p.pending.length ∨ p.Ended →
        Took p (b.lim - b.pos) (p.readBuf b).1.port) := by
  unfold readBuf
  rw [fillLoop_eq _ _ _ hb, Buffer.available_of_le hb]
  obtain ⟨hbs, ht, -⟩ := readLoop_spec (Nat.le_refl (b.lim - b.pos))
  exact ⟨by rw [hbs], ht⟩

/-- Reads write nothing. -/
theorem sent_read (p : Port) (n : Nat) : (p.read n).port.sent = p.sent := by
  unfold read
  split <;> rfl

theorem sent_readLoop (k n : Nat) (p : Port) : (readLoop k n p).port.sent = p.sent := by
  induction k generalizing n p with
  | zero => rfl
  | succ k ih =>
    rw [readLoop]
    split
    · rfl
    · dsimp only
      split
      · exact sent_read p n
      · exact (ih _ _).trans (sent_read p n)

theorem sent_readN (p : Port) (n : Nat) : (p.readN n).port.sent = p.sent := sent_readLoop n n p

theorem sent_fillLoop (k : Nat) (b : Buffer UInt8) (p : Port) :
    (fillLoop k b p).1.port.sent = p.sent := by
  induction k generalizing b p with
  | zero => rfl
  | succ k ih =>
    rw [fillLoop]
    split
    · rfl
    · dsimp only
      split
      · exact sent_read p _
      · exact (ih _ _).trans (sent_read p _)

theorem sent_readBuf (p : Port) (b : Buffer UInt8) : (p.readBuf b).1.port.sent = p.sent :=
  sent_fillLoop _ b p

/-! ### Writes -/

/-- A port every write to which makes progress. -/
def Lossless (p : Port) : Prop := ∀ r ∈ p.wr, ∃ k, r = .upTo k

/-- `bs` was written. -/
structure Wrote (p : Port) (bs : List UInt8) (p' : Port) : Prop where
  sent : p'.sent = p.sent ++ bs
  rd : p'.rd = p.rd
  taken : p'.taken = p.taken

theorem Wrote.trans {p p' p'' : Port} {xs ys : List UInt8} (h : Wrote p xs p')
    (h' : Wrote p' ys p'') : Wrote p (xs ++ ys) p'' :=
  ⟨by rw [h'.sent, h.sent, List.append_assoc], h'.rd.trans h.rd, h'.taken.trans h.taken⟩

/-- One write takes a prefix, of at least one byte if the port is lossless. -/
theorem write_spec (p : Port) {bs : List UInt8} (hb : bs.length ≠ 0) :
    (p.write bs).1 ≤ bs.length ∧ Wrote p (bs.take (p.write bs).1.toNat) (p.write bs).2 ∧
      (p.Lossless → 0 < (p.write bs).1 ∧ (p.write bs).2.Lossless) := by
  have hm : 0 < maxTransfer := by decide
  have hpos : 0 < bs.length := Nat.pos_of_ne_zero hb
  have htake (n : Nat) : bs.take (bs.take n).length = bs.take n := by
    rw [List.length_take, ← List.take_eq_take_min]
  unfold write
  split
  · next hw =>
    dsimp only
    rw [Int.toNat_natCast, htake]
    refine ⟨?_, ⟨rfl, rfl, rfl⟩, fun _ ↦ ⟨?_, ?_⟩⟩
    · rw [List.length_take]
      omega
    · rw [List.length_take]
      omega
    · intro r hr
      rw [hw] at hr
      exact absurd hr List.not_mem_nil
  · next hw =>
    refine ⟨Int.natCast_nonneg _, ⟨(List.append_nil _).symm, rfl, rfl⟩, fun hl ↦ ?_⟩
    obtain ⟨k, hk⟩ := hl .none (by rw [hw]; exact List.mem_cons_self ..)
    cases hk
  · next hw =>
    refine ⟨by dsimp only; omega, ⟨(List.append_nil _).symm, rfl, rfl⟩, fun hl ↦ ?_⟩
    obtain ⟨k, hk⟩ := hl .err (by rw [hw]; exact List.mem_cons_self ..)
    cases hk
  · next k wr hw =>
    dsimp only
    rw [Int.toNat_natCast, htake]
    refine ⟨?_, ⟨rfl, rfl, rfl⟩, fun hl ↦ ⟨?_, fun r hr ↦ hl r ?_⟩⟩
    · rw [List.length_take]
      omega
    · rw [List.length_take]
      omega
    · rw [hw]
      exact List.mem_cons_of_mem _ hr

/-- Each write uses up one answer. -/
theorem wr_write (p : Port) (bs : List UInt8) : (p.write bs).2.wr = p.wr.tail := by
  unfold write
  split
  · next hw => rw [hw, List.tail_nil]
  · next hw => rw [hw, List.tail_cons]
  · next hw => rw [hw, List.tail_cons]
  · next hw => rw [hw, List.tail_cons]

theorem write_le (p : Port) (bs : List UInt8) : (p.write bs).1 ≤ bs.length := by
  unfold write
  split
  · rw [List.length_take]
    omega
  · exact Int.natCast_nonneg _
  · show (-1 : Int) ≤ bs.length
    omega
  · dsimp only
    rw [List.length_take]
    omega

/-- A port that only ever takes less than everything takes everything in the end. -/
theorem write_of_wr_nil {p : Port} {bs : List UInt8} (h : p.wr = [])
    (hb : bs.length ≤ maxTransfer) : (p.write bs).1 = bs.length := by
  unfold write
  rw [h]
  dsimp only
  rw [List.take_of_length_le hb]

/-- A write takes a prefix, and the rest of the port is left as it is. -/
theorem write_wrote (p : Port) (bs : List UInt8) :
    Wrote p (bs.take (p.write bs).1.toNat) (p.write bs).2 := by
  by_cases hb : bs.length = 0
  · rw [List.eq_nil_of_length_eq_zero hb, List.take_nil]
    unfold write
    split <;> refine ⟨?_, rfl, rfl⟩ <;> simp
  · exact (write_spec p hb).2.1

theorem write_lossless {p : Port} (hl : p.Lossless) (bs : List UInt8) :
    0 ≤ (p.write bs).1 ∧ (p.write bs).2.Lossless := by
  constructor
  · by_cases hb : bs.length = 0
    · unfold write
      split
      · exact Int.natCast_nonneg _
      · exact Int.le_refl 0
      · next hw =>
        rcases hl .err (by rw [hw]; exact List.mem_cons_self ..) with ⟨k, hk⟩
        cases hk
      · exact Int.natCast_nonneg _
    · exact Int.le_of_lt ((write_spec p hb).2.2 hl).1
  · intro r hr
    rw [wr_write] at hr
    exact hl r (List.mem_of_mem_tail hr)

/-- The loop writes a prefix, and on a lossless port everything. -/
theorem writeLoop_spec {k : Nat} {p : Port} {bs : List UInt8} (hk : bs.length ≤ k) :
    Wrote p (bs.take (writeLoop k bs p).2.1) (writeLoop k bs p).2.2 ∧
      (p.Lossless → (writeLoop k bs p).2.1 = bs.length ∧ (writeLoop k bs p).2.2.Lossless) := by
  induction k generalizing bs p with
  | zero =>
    have hb : bs.length = 0 := Nat.le_zero.mp hk
    exact ⟨⟨(List.append_nil _).symm, rfl, rfl⟩, fun hl ↦ ⟨hb.symm, hl⟩⟩
  | succ k ih =>
    rw [writeLoop]
    by_cases hb : bs.length = 0
    · rw [if_pos hb]
      exact ⟨⟨(List.append_nil _).symm, rfl, rfl⟩, fun hl ↦ ⟨hb.symm, hl⟩⟩
    · rw [if_neg hb]
      obtain ⟨hle, hw, hl⟩ := write_spec p hb
      dsimp only
      split
      · next h0 =>
        have hz : (p.write bs).1.toNat = 0 := by omega
        rw [hz] at hw
        exact ⟨hw, fun hp ↦ absurd (hl hp).1 (by omega)⟩
      · next h0 =>
        have hd : (bs.drop (p.write bs).1.toNat).length = bs.length - (p.write bs).1.toNat :=
          List.length_drop ..
        obtain ⟨hw', hl'⟩ := @ih (p.write bs).2 (bs.drop (p.write bs).1.toNat) (by omega)
        refine ⟨?_, fun hp ↦ ?_⟩
        · rw [List.take_add]
          exact hw.trans hw'
        · obtain ⟨hn, hp'⟩ := hl' (hl hp).2
          exact ⟨by dsimp only; omega, hp'⟩

/-- `write_n` leaves what is to be read as it is, and on a lossless port writes everything. -/
theorem writeN_spec (p : Port) (bs : List UInt8) :
    (∃ k, Wrote p (bs.take k) (p.writeN bs).2) ∧
      (p.Lossless → (p.writeN bs).1 = toInt32 bs.length ∧ Wrote p bs (p.writeN bs).2 ∧
        (p.writeN bs).2.Lossless) := by
  obtain ⟨hw, hl⟩ := @writeLoop_spec bs.length p bs (Nat.le_refl _)
  refine ⟨⟨_, hw⟩, fun hp ↦ ?_⟩
  obtain ⟨hn, hp'⟩ := hl hp
  rw [hn, List.take_length] at hw
  refine ⟨?_, hw, hp'⟩
  unfold writeN
  dsimp only
  rw [hn]
  by_cases h0 : bs.length = 0
  · have hbs := List.eq_nil_of_length_eq_zero h0
    rw [hbs]
    rfl
  · rw [if_neg fun hc ↦ h0 hc.1]

/-- Writes leave what is to be read as it is, also those from a buffer out of order. -/
theorem write_frame (p : Port) (bs : List UInt8) :
    (p.write bs).2.rd = p.rd ∧ (p.write bs).2.taken = p.taken := by
  unfold write
  split <;> exact ⟨rfl, rfl⟩

theorem writeN_frame (p : Port) (bs : List UInt8) :
    (p.writeN bs).2.rd = p.rd ∧ (p.writeN bs).2.taken = p.taken := by
  obtain ⟨⟨_, h⟩, -⟩ := writeN_spec p bs
  exact ⟨h.rd, h.taken⟩

theorem drainLoop_frame (k : Nat) (b : Buffer UInt8) (p : Port) :
    (drainLoop k b p).2.2.2.rd = p.rd ∧ (drainLoop k b p).2.2.2.taken = p.taken := by
  induction k generalizing b p with
  | zero => exact ⟨rfl, rfl⟩
  | succ k ih =>
    have hw := write_frame p (Block.read b.mem b.pos b.available)
    rw [drainLoop]
    split
    · exact ⟨rfl, rfl⟩
    · dsimp only
      split
      · exact hw
      · obtain ⟨h1, h2⟩ := ih { b with pos := b.pos + (p.write
          (Block.read b.mem b.pos b.available)).1.toNat }
          (p.write (Block.read b.mem b.pos b.available)).2
        exact ⟨h1.trans hw.1, h2.trans hw.2⟩

theorem writeBuf_frame (p : Port) (b : Buffer UInt8) :
    (p.writeBuf b).2.2.rd = p.rd ∧ (p.writeBuf b).2.2.taken = p.taken :=
  drainLoop_frame _ b p

theorem capacity_drainLoop (k : Nat) (b : Buffer UInt8) (p : Port) :
    (drainLoop k b p).2.2.1.capacity = b.capacity := by
  induction k generalizing b p with
  | zero => rfl
  | succ k ih =>
    rw [drainLoop]
    split
    · rfl
    · dsimp only
      split
      · rfl
      · exact ih _ _

theorem capacity_writeBuf (p : Port) (b : Buffer UInt8) :
    (p.writeBuf b).2.1.capacity = b.capacity := capacity_drainLoop _ b p

/-- Emptying a buffer is writing what is unread in it. -/
theorem drainLoop_eq (k : Nat) (b : Buffer UInt8) (p : Port) (hb : b.Valid) :
    drainLoop k b p = ((writeLoop k b.unread p).1, (writeLoop k b.unread p).2.1,
      { b with pos := b.pos + (writeLoop k b.unread p).2.1 }, (writeLoop k b.unread p).2.2) := by
  induction k generalizing b p with
  | zero => rfl
  | succ k ih =>
    have hlen := hb.length_unread
    have hp := hb.pos_le
    rw [drainLoop, writeLoop]
    by_cases hf : b.lim = b.pos
    · rw [if_pos (Buffer.full_iff.mpr hf), if_pos (by omega : b.unread.length = 0)]
      rfl
    · rw [if_neg (fun h ↦ hf (Buffer.full_iff.mp h)), Buffer.available_of_le hp,
        if_neg (by omega : ¬b.unread.length = 0)]
      have hu : Block.read b.mem b.pos (b.lim - b.pos) = b.unread := rfl
      rw [hu]
      dsimp only
      split
      · rfl
      · have hne : b.unread.length ≠ 0 := by omega
        have hle := (write_spec p hne).1
        have hv : ({ b with pos := b.pos + (p.write b.unread).1.toNat } : Buffer UInt8).Valid :=
          ⟨by dsimp only; omega, hb.lim_le⟩
        have hd : ({ b with pos := b.pos + (p.write b.unread).1.toNat } : Buffer UInt8).unread =
            b.unread.drop (p.write b.unread).1.toNat := by
          simp only [Buffer.unread, Block.read, List.drop_take, List.drop_drop, Nat.sub_add_eq]
        rw [ih _ _ hv, hd]
        simp only [Nat.add_assoc]

/-- A buffer is written like the bytes unread in it. -/
theorem writeBuf_spec (p : Port) {b : Buffer UInt8} (hb : b.Valid) :
    (p.writeBuf b).1 = (p.writeN b.unread).1 ∧ (p.writeBuf b).2.2 = (p.writeN b.unread).2 := by
  have hlen : b.unread.length = b.available := by
    rw [hb.length_unread, Buffer.available_of_le hb.pos_le]
  unfold writeBuf writeN
  rw [drainLoop_eq _ _ _ hb, hlen]
  exact ⟨rfl, rfl⟩

end Port
end CtrlrFx.Io

import CtrlrFx.Base.Effort
import CtrlrFx.Io.Port

/-!
# Best-effort transfers

`read_n` and `write_n` as there are two families of them: for file descriptors in
`src/io/Device/Device.cpp`, and for connected sockets in `src/io/net/Socket.cpp`, each between the
system and either a block of memory or a buffer. What the system answers is not known; it may be
anything that the system calls document.
-/

namespace CtrlrFx.Io
open Base Data

/-- The system calls that transfer bytes through an open descriptor, `read` or `recv` and `write` or
`send`, over states `σ` of whatever is behind it. -/
structure System (σ : Type) where
  read : σ → Nat → Int × List UInt8 × σ
  write : σ → List UInt8 → Int × σ
  /-- A call tells at most what it was asked for; an error is a negative `int`. -/
  read_told : ∀ d n, -2 ^ 31 ≤ (read d n).1 ∧ (read d n).1 ≤ n
  write_told : ∀ d bs, -2 ^ 31 ≤ (write d bs).1 ∧ (write d bs).1 ≤ bs.length
  /-- A read stores as many bytes as it tells. -/
  length_read : ∀ d n, (read d n).2.1.length = (read d n).1.toNat

namespace System

variable {σ : Type} (sys : System σ)

/-- A read of `n` bytes to offset `i` of the caller's memory. -/
def reading (s : σ × List UInt8) (i n : Nat) : Int × σ × List UInt8 :=
  let r := sys.read s.1 n
  (r.1, r.2.2, Block.write s.2 i r.2.1)

/-- A write of `n` bytes from offset `i` of the caller's memory. -/
def writing (s : σ × List UInt8) (i n : Nat) : Int × σ × List UInt8 :=
  let r := sys.write s.1 (Block.read s.2 i n)
  (r.1, r.2, s.2)

theorem told_reading : Effort.Told sys.reading := fun s _ n ↦ sys.read_told s.1 n

theorem told_writing : Effort.Told sys.writing := by
  intro s i n
  obtain ⟨hlo, hhi⟩ := sys.write_told s.1 (Block.read s.2 i n)
  refine ⟨hlo, Int.le_trans hhi ?_⟩
  rw [Block.read, List.length_take]
  omega

end System

/-- What a transfer tells, with the state, the memory and the system calls it made. -/
structure Outcome (σ : Type) where
  ret : Int
  dev : σ
  mem : List UInt8
  calls : List Attempt

/-- The same of a transfer through a buffer. -/
structure BufOutcome (σ : Type) where
  ret : Int
  dev : σ
  buf : Buffer UInt8
  calls : List Attempt

namespace Fd

variable {σ : Type} (sys : System σ)

/-- What both functions make of their loop; `src/io/Device/Device.cpp:27,46`. -/
def finish (t : Effort (σ × List UInt8)) : Outcome σ :=
  { ret := if t.count = 0 then t.nx else toInt32 t.count
    dev := t.dev.1
    mem := t.dev.2
    calls := t.calls }

/-- Reads `n` bytes to offset `i` of `mem`; `src/io/Device/Device.cpp:14–28`. -/
def readN (d : σ) (mem : List UInt8) (i n : Nat) : Outcome σ :=
  finish (Effort.loop sys.reading i n n (.start (d, mem)))

/-- Writes `n` bytes from offset `i` of `mem`; `src/io/Device/Device.cpp:33–47`. -/
def writeN (d : σ) (mem : List UInt8) (i n : Nat) : Outcome σ :=
  finish (Effort.loop sys.writing i n n (.start (d, mem)))

/-- Moves the position behind what was transferred; `src/io/Device/Device.cpp:70–73,95–100`. -/
def advance (b : Buffer UInt8) (r : Outcome σ) : BufOutcome σ :=
  { ret := r.ret
    dev := r.dev
    buf := { b with mem := r.mem, pos := if r.ret > 0 then b.pos + r.ret.toNat else b.pos }
    calls := r.calls }

/-- Fills a buffer; `src/io/Device/Device.cpp:66–74`. -/
def readBuf (d : σ) (b : Buffer UInt8) : BufOutcome σ :=
  advance b (readN sys d b.mem b.pos b.available)

/-- Empties a buffer; `src/io/Device/Device.cpp:93–101`. -/
def writeBuf (d : σ) (b : Buffer UInt8) : BufOutcome σ :=
  advance b (writeN sys d b.mem b.pos b.available)

end Fd

namespace TcpSocket

variable {σ : Type} (sys : System σ)

/-- What both functions make of their loop; `src/io/net/Socket.cpp:233,306`. -/
def finish (t : Effort (σ × List UInt8)) : Outcome σ :=
  { ret := if t.count = 0 ∧ t.nx < 0 then t.nx else toInt32 t.count
    dev := t.dev.1
    mem := t.dev.2
    calls := t.calls }

/-- Reads `n` bytes to offset `i` of `mem`; `src/io/net/Socket.cpp:219–234`. -/
def readN (d : σ) (mem : List UInt8) (i n : Nat) : Outcome σ :=
  finish (Effort.loop sys.reading i n n (.start (d, mem)))

/-- Writes `n` bytes from offset `i` of `mem`; `src/io/net/Socket.cpp:292–307`. -/
def writeN (d : σ) (mem : List UInt8) (i n : Nat) : Outcome σ :=
  finish (Effort.loop sys.writing i n n (.start (d, mem)))

/-- State of the loops that transfer through a buffer. -/
structure BufEffort (σ : Type) where
  dev : σ
  buf : Buffer UInt8
  count : Nat
  nx : Int
  calls : List Attempt

/-- The loop that fills a buffer and the one that empties it, of as many rounds as there are bytes;
`src/io/net/Socket.cpp:257–263,330–336`. -/
def bufLoop (call : σ × List UInt8 → Nat → Nat → Int × σ × List UInt8) :
    Nat → BufEffort σ → BufEffort σ
  | 0, t => t
  | k + 1, t =>
    if t.buf.full then t
    else
      let r := call (t.dev, t.buf.mem) t.buf.pos t.buf.available
      let nx := toInt32 r.1
      let t := { t with
        dev := r.2.1
        buf := { t.buf with mem := r.2.2 }
        nx
        calls := t.calls ++ [{ start := t.buf.pos, len := t.buf.available, res := nx }] }
      if nx ≤ 0 then t
      else bufLoop call k { t with
        buf := { t.buf with pos := t.buf.pos + nx.toNat }
        count := t.count + nx.toNat }

/-- A loop that is entered. -/
def BufEffort.start (d : σ) (b : Buffer UInt8) : BufEffort σ :=
  { dev := d, buf := b, count := 0, nx := 0, calls := [] }

/-- Fills a buffer; `src/io/net/Socket.cpp:252–266`. -/
def readBuf (d : σ) (b : Buffer UInt8) : BufOutcome σ :=
  let t := bufLoop sys.reading b.available (.start d b)
  { ret := if t.count = 0 ∧ t.nx < 0 then t.nx else toInt32 t.count
    dev := t.dev
    buf := t.buf
    calls := t.calls }

/-- Empties a buffer. The two results it chooses from have the common type `size_t`;
`src/io/net/Socket.cpp:325–339`. -/
def writeBuf (d : σ) (b : Buffer UInt8) : BufOutcome σ :=
  let t := bufLoop sys.writing b.available (.start d b)
  { ret := toInt32 (if t.count = 0 ∧ t.nx < 0 then toSize t.nx else t.count : Nat)
    dev := t.dev
    buf := t.buf
    calls := t.calls }

end TcpSocket

/-! ### What a transfer does -/

section Exactness

variable {σ : Type} {sys : System σ}

/-- A result that goes with the calls made for `n` bytes at `i`. -/
structure Exact (i n : Nat) (ret : Int) (calls : List Attempt) : Prop where
  tried : Tried i n calls
  total : 0 ≤ ret → ret = moved calls
  short : ret < n → ∃ c ∈ calls, c.res ≤ 0
  negative : ret < 0 → moved calls = 0

/-- What the reads among the calls stored, in order. -/
def received (sys : System σ) : σ → List Attempt → List UInt8
  | _, [] => []
  | d, c :: cs => (sys.read d c.len).2.1 ++ received sys (sys.read d c.len).2.2 cs

/-- What the writes among the calls took, in order. -/
def written (mem : List UInt8) (cs : List Attempt) : List UInt8 :=
  cs.flatMap fun c ↦ (Block.read mem c.start c.len).take c.res.toNat

/-- A read of `n` bytes that is exact, and stores what was received one behind the other from `i`
on. -/
structure ReadsExactly (sys : System σ) (d : σ) (mem : List UInt8) (i n : Nat)
    (r : Outcome σ) : Prop where
  exact : Exact i n r.ret r.calls
  answered : Effort.Answered sys.reading (d, mem) r.calls (r.dev, r.mem)
  stored : r.mem = Block.write mem i (received sys d r.calls)
  length : (received sys d r.calls).length = moved r.calls

/-- A write of `n` bytes that is exact, and hands over the bytes from `i` on, in order. -/
structure WritesExactly (sys : System σ) (d : σ) (mem : List UInt8) (i n : Nat)
    (r : Outcome σ) : Prop where
  exact : Exact i n r.ret r.calls
  answered : Effort.Answered sys.writing (d, mem) r.calls (r.dev, r.mem)
  kept : r.mem = mem
  written : Io.written mem r.calls = Block.read mem i (moved r.calls)

/-- The transfer of a buffer as one of its memory. -/
def BufOutcome.outcome (r : BufOutcome σ) : Outcome σ :=
  { ret := r.ret, dev := r.dev, mem := r.buf.mem, calls := r.calls }

/-- The position of a buffer is advanced by what was moved, and not past the limit. -/
structure Advances (b : Buffer UInt8) (r : BufOutcome σ) : Prop where
  buf : r.buf = { b with mem := r.buf.mem, pos := b.pos + moved r.calls }
  le_lim : r.buf.pos ≤ b.lim

/-- The reads of a best effort fill the memory from `i` on. -/
theorem stored_of_tried {i n : Nat} {cs : List Attempt} (h : Tried i n cs) {d d' : σ}
    {mem mem' : List UInt8} (ha : Effort.Answered sys.reading (d, mem) cs (d', mem')) :
    mem' = Block.write mem i (received sys d cs) ∧ (received sys d cs).length = moved cs := by
  induction h generalizing d mem with
  | done i =>
    cases ha
    exact ⟨rfl, rfl⟩
  | stop hn hr =>
    obtain ⟨hres, hend⟩ := ha
    rename_i i n r
    have hlen := sys.length_read d n
    have hres' : (sys.read d n).1 = r := hres
    rw [hres', Int.toNat_of_nonpos hr] at hlen
    have hnil := List.eq_nil_of_length_eq_zero hlen
    have hmem : mem' = Block.write mem i (sys.read d n).2.1 := congrArg Prod.snd hend
    simp only [received, moved, hnil, List.append_nil, List.length_nil, Nat.add_zero,
      Int.toNat_of_nonpos hr, and_true]
    rw [hmem, hnil]
  | more hm hn _ ih =>
    obtain ⟨hres, hrest⟩ := ha
    rename_i i n m cs _
    have hlen := sys.length_read d n
    have hres' : (sys.read d n).1 = m := hres
    rw [hres', Int.toNat_natCast] at hlen
    obtain ⟨h1, h2⟩ := ih hrest
    simp only [received, moved, List.length_append, Int.toNat_natCast, h2, hlen, and_true]
    rw [h1, Block.write_append, hlen]

/-- The writes of a best effort leave the memory alone. -/
theorem kept_of_answered {cs : List Attempt} {d d' : σ} {mem mem' : List UInt8}
    (ha : Effort.Answered sys.writing (d, mem) cs (d', mem')) : mem' = mem := by
  induction cs generalizing d with
  | nil => exact congrArg Prod.snd ha
  | cons c cs ih => exact ih ha.2

variable (sys)

/-- Both families make the same of a loop that has moved something, or was told nothing positive. -/
theorem finish_eq {σ : Type} {t : Effort (σ × List UInt8)} (h : t.count = 0 → t.nx ≤ 0) :
    Fd.finish t = TcpSocket.finish t := by
  have hret : (if t.count = 0 then t.nx else toInt32 t.count) =
      if t.count = 0 ∧ t.nx < 0 then t.nx else toInt32 t.count := by
    by_cases h0 : t.count = 0
    · by_cases hneg : t.nx < 0
      · rw [if_pos h0, if_pos ⟨h0, hneg⟩]
      · have hz : t.nx = 0 := Int.le_antisymm (h h0) (Int.not_lt.mp hneg)
        rw [if_pos h0, if_neg fun hn ↦ hneg hn.2, hz, h0]
        rfl
    · rw [if_neg h0, if_neg fun hn ↦ h0 hn.1]
  rw [Fd.finish, TcpSocket.finish, hret]

/-- What a loop from its start leaves goes with its calls. -/
theorem exact_finish {call : σ × List UInt8 → Nat → Nat → Int × σ × List UInt8}
    (hc : Effort.Told call) (s : σ × List UInt8) (i : Nat) {n : Nat} (hn : n < 2 ^ 31) :
    Exact i n (Fd.finish (Effort.loop call i n n (.start s))).ret
      (Fd.finish (Effort.loop call i n n (.start s))).calls := by
  obtain ⟨ht, -, hcount, hnx⟩ := Effort.loop_start hc s i hn
  obtain ⟨t, he⟩ : ∃ t, Effort.loop call i n n (.start s) = t := ⟨_, rfl⟩
  rw [he] at ht hcount hnx ⊢
  have hle := ht.moved_le
  have hint : toInt32 t.count = t.count := toInt32_of_lt _ (by omega) (by omega)
  have hret : (Fd.finish t).ret = if t.count = 0 then t.nx else (t.count : Int) := by
    rw [← hint]
    rfl
  rw [hret]
  refine ⟨ht, ?_, ?_, ?_⟩
  · change 0 ≤ _ → _ = ((moved t.calls : Nat) : Int)
    split <;> omega
  · intro hlt
    apply ht.exists_of_moved_lt
    split at hlt
    · next h0 =>
      have hz := (hnx h0).2
      omega
    · omega
  · intro hlt
    have h0 : moved t.calls = 0 := by split at hlt <;> omega
    exact h0

theorem readsExactly (d : σ) (mem : List UInt8) (i : Nat) {n : Nat} (hn : n < 2 ^ 31) :
    ReadsExactly sys d mem i n (Fd.readN sys d mem i n) := by
  obtain ⟨ht, ha, -, -⟩ := Effort.loop_start sys.told_reading (d, mem) i hn
  obtain ⟨hs, hl⟩ := stored_of_tried ht ha
  exact ⟨exact_finish sys.told_reading (d, mem) i hn, ha, hs, hl⟩

theorem writesExactly (d : σ) (mem : List UInt8) (i : Nat) {n : Nat} (hn : n < 2 ^ 31) :
    WritesExactly sys d mem i n (Fd.writeN sys d mem i n) := by
  obtain ⟨ht, ha, -, -⟩ := Effort.loop_start sys.told_writing (d, mem) i hn
  exact ⟨exact_finish sys.told_writing (d, mem) i hn, ha, kept_of_answered ha, ht.flatMap_read mem⟩

/-! ### Through a buffer -/

/-- The loop of a socket on a buffer, for what it is on the buffer's memory. -/
def bufEffort (b : Buffer UInt8) (t : Effort (σ × List UInt8)) : TcpSocket.BufEffort σ :=
  { dev := t.dev.1
    buf := { b with mem := t.dev.2, pos := b.pos + t.count }
    count := t.count
    nx := t.nx
    calls := t.calls }

/-- That loop ends at the limit where the other ends at the number of bytes. -/
theorem bufLoop_eq {call : σ × List UInt8 → Nat → Nat → Int × σ × List UInt8}
    (hc : Effort.Told call) {b : Buffer UInt8} {n : Nat} (hb : b.lim = b.pos + n)
    (hn : n < 2 ^ 31) (k : Nat) {t : Effort (σ × List UInt8)} (ht : t.count ≤ n) :
    TcpSocket.bufLoop call k (bufEffort b t) = bufEffort b (Effort.loop call b.pos n k t) := by
  induction k generalizing t with
  | zero => rfl
  | succ k ih =>
    rw [TcpSocket.bufLoop, Effort.loop]
    by_cases hlt : t.count < n
    · have hfull : (bufEffort b t).buf.full = false := by
        apply Bool.eq_false_of_not_eq_true
        rw [Buffer.full_iff]
        simp only [bufEffort]
        omega
      have hav : (bufEffort b t).buf.available = n - t.count := by
        rw [Buffer.available_of_le]
        · simp only [bufEffort]
          omega
        · simp only [bufEffort]
          omega
      have hlaw := hc t.dev (b.pos + t.count) (n - t.count)
      have hcall : call ((bufEffort b t).dev, (bufEffort b t).buf.mem) (bufEffort b t).buf.pos
          (bufEffort b t).buf.available = call t.dev (b.pos + t.count) (n - t.count) := by
        rw [hav]
        rfl
      obtain ⟨r, hr⟩ : ∃ r, call t.dev (b.pos + t.count) (n - t.count) = r := ⟨_, rfl⟩
      rw [hr] at hlaw hcall
      have hint : toInt32 r.1 = r.1 := toInt32_of_lt _ hlaw.1 (by omega)
      rw [if_pos hlt, if_neg (by rw [hfull]; decide), hcall, hr, hav]
      dsimp only
      rw [hint]
      by_cases h0 : r.1 ≤ 0
      · rw [if_pos h0, if_pos h0]
        rfl
      · rw [if_neg h0, if_neg h0, ← ih (by dsimp only; omega)]
        simp only [bufEffort, Nat.add_assoc]
    · have hfull : (bufEffort b t).buf.full = true := by
        rw [Buffer.full_iff]
        simp only [bufEffort]
        omega
      rw [if_neg hlt, if_pos hfull]

/-- Moving the position behind what was told is moving it behind what was moved. -/
theorem advance_eq {b : Buffer UInt8} {r : Outcome σ} {i n : Nat}
    (h : Exact i n r.ret r.calls) :
    Fd.advance b r = { ret := r.ret, dev := r.dev, calls := r.calls
                       buf := { b with mem := r.mem, pos := b.pos + moved r.calls } } := by
  have hpos : (if r.ret > 0 then b.pos + r.ret.toNat else b.pos) = b.pos + moved r.calls := by
    have ht := h.total
    have hn := h.negative
    split <;> omega
  rw [Fd.advance, hpos]

/-- An `int` survives being a `size_t`. -/
theorem toInt32_toSize {z : Int} (hl : -2 ^ 31 ≤ z) (hu : z < 0) :
    toInt32 (toSize z : Nat) = z := by
  unfold toInt32 toSize
  split <;> omega

/-- The loop of a socket on a buffer leaves what the other family makes of the buffer's memory, and
both its final expressions choose the same result. -/
theorem buf_eq {call : σ × List UInt8 → Nat → Nat → Int × σ × List UInt8}
    (hc : Effort.Told call) (d : σ) {b : Buffer UInt8} (hb : b.pos ≤ b.lim)
    (hn : b.available < 2 ^ 31) {t : TcpSocket.BufEffort σ}
    (ht : TcpSocket.bufLoop call b.available (.start d b) = t) {r : Outcome σ}
    (hr : Fd.finish (Effort.loop call b.pos b.available b.available (.start (d, b.mem))) = r) :
    t.dev = r.dev ∧ t.calls = r.calls ∧
      t.buf = { b with mem := r.mem, pos := b.pos + moved r.calls } ∧
      (if t.count = 0 ∧ t.nx < 0 then t.nx else toInt32 t.count) = r.ret ∧
      toInt32 (if t.count = 0 ∧ t.nx < 0 then toSize t.nx else t.count : Nat) = r.ret ∧
      b.pos + moved r.calls ≤ b.lim := by
  have hav := Buffer.available_of_le hb
  have hloop := bufLoop_eq hc (b := b) (n := b.available) (by omega) hn b.available
    (t := .start (d, b.mem)) (Nat.zero_le _)
  have hstart : bufEffort b (.start (d, b.mem)) = TcpSocket.BufEffort.start d b := rfl
  obtain ⟨htried, -, hcount, hnx⟩ := Effort.loop_start hc (d, b.mem) b.pos hn
  have hlo : -2 ^ 31 ≤ (Effort.loop call b.pos b.available b.available (.start (d, b.mem))).nx :=
    Effort.le_nx_loop (show -2 ^ 31 ≤ (0 : Int) by decide)
  obtain ⟨u, hu⟩ : ∃ u, Effort.loop call b.pos b.available b.available (.start (d, b.mem)) = u :=
    ⟨_, rfl⟩
  rw [hstart, hu, ht] at hloop
  rw [hu] at htried hcount hnx hlo hr
  have hle := htried.moved_le
  have hret : (if u.count = 0 ∧ u.nx < 0 then u.nx else toInt32 u.count) = (Fd.finish u).ret := by
    rw [finish_eq fun h ↦ (hnx h).1]
    rfl
  subst hr
  rw [hloop]
  refine ⟨rfl, rfl, ?_, hret, ?_, ?_⟩
  · change ({ b with mem := u.dev.2, pos := b.pos + u.count } : Buffer UInt8) = _
    rw [hcount]
    rfl
  · rw [← hret]
    change toInt32 (if u.count = 0 ∧ u.nx < 0 then toSize u.nx else u.count : Nat) = _
    by_cases h0 : u.count = 0 ∧ u.nx < 0
    · rw [if_pos h0, if_pos h0]
      exact toInt32_toSize hlo h0.2
    · rw [if_neg h0, if_neg h0]
  · change b.pos + moved u.calls ≤ b.lim
    omega

/-- Both families transfer the same, with the same system calls and results, and exactly: the total
that was moved, less than was asked for only if a call moved nothing, and negative only if none
did; the bytes one behind the other; the position of a buffer behind them. -/
theorem bestEffort_agree (d : σ) (mem : List UInt8) (i : Nat) {n : Nat} (hn : n < 2 ^ 31)
    {b : Buffer UInt8} (hb : b.pos ≤ b.lim) (hav : b.available < 2 ^ 31) :
    (Fd.readN sys d mem i n = TcpSocket.readN sys d mem i n ∧
      Fd.writeN sys d mem i n = TcpSocket.writeN sys d mem i n ∧
      Fd.readBuf sys d b = TcpSocket.readBuf sys d b ∧
      Fd.writeBuf sys d b = TcpSocket.writeBuf sys d b) ∧
    ReadsExactly sys d mem i n (Fd.readN sys d mem i n) ∧
    WritesExactly sys d mem i n (Fd.writeN sys d mem i n) ∧
    (ReadsExactly sys d b.mem b.pos b.available (Fd.readBuf sys d b).outcome ∧
      Advances b (Fd.readBuf sys d b)) ∧
    (WritesExactly sys d b.mem b.pos b.available (Fd.writeBuf sys d b).outcome ∧
      Advances b (Fd.writeBuf sys d b)) := by
  have hr := readsExactly sys d b.mem b.pos hav
  have hw := writesExactly sys d b.mem b.pos hav
  have har := advance_eq (b := b) hr.exact
  have haw := advance_eq (b := b) hw.exact
  obtain ⟨hr1, hr2, hr3, hr4, -, hr5⟩ := buf_eq sys.told_reading d hb hav rfl rfl
  obtain ⟨hw1, hw2, hw3, -, hw4, hw5⟩ := buf_eq sys.told_writing d hb hav rfl rfl
  refine ⟨⟨?_, ?_, ?_, ?_⟩, readsExactly sys d mem i hn, writesExactly sys d mem i hn,
    ⟨?_, ?_⟩, ⟨?_, ?_⟩⟩
  · exact finish_eq fun h ↦ ((Effort.loop_start sys.told_reading _ _ hn).2.2.2 h).1
  · exact finish_eq fun h ↦ ((Effort.loop_start sys.told_writing _ _ hn).2.2.2 h).1
  · rw [Fd.readBuf, har, TcpSocket.readBuf]
    rw [hr1, hr2, hr3, hr4]
    rfl
  · rw [Fd.writeBuf, haw, TcpSocket.writeBuf]
    rw [hw1, hw2, hw3, hw4]
    rfl
  · rw [Fd.readBuf, har]
    exact hr
  · rw [Fd.readBuf, har]
    exact ⟨rfl, hr5⟩
  · rw [Fd.writeBuf, haw]
    exact hw
  · rw [Fd.writeBuf, haw]
    exact ⟨rfl, hw5⟩

end Exactness

/-! ### Ports -/

namespace Port

theorem length_read (p : Port) (n : Nat) : (p.read n).bytes.length = (p.read n).ret.toNat := by
  unfold read
  split <;> rfl

theorem read_told (p : Port) (n : Nat) :
    -1 ≤ (p.read n).ret ∧ (p.read n).ret ≤ min n maxTransfer := by
  unfold read
  split
  · dsimp only
    omega
  · dsimp only
    omega
  · dsimp only
    omega
  · dsimp only
    rw [List.length_take]
    omega

theorem write_told (p : Port) (bs : List UInt8) : -1 ≤ (p.write bs).1 := by
  unfold write
  split
  · omega
  · dsimp only
    omega
  · exact Int.le_refl _
  · dsimp only
    omega

theorem write_le_max (p : Port) (bs : List UInt8) : (p.write bs).1 ≤ maxTransfer := by
  have hm : 0 < maxTransfer := by decide
  unfold write
  split
  · rw [List.length_take]
    omega
  · exact Int.natCast_nonneg _
  · dsimp only
    omega
  · dsimp only
    rw [List.length_take]
    omega

/-- A port is a system of its own. -/
def system : System Port where
  read p n := ((p.read n).ret, (p.read n).bytes, (p.read n).port)
  write p bs := p.write bs
  read_told p n := by
    obtain ⟨h1, h2⟩ := p.read_told n
    dsimp only
    omega
  write_told p bs := by
    have hlo := p.write_told bs
    exact ⟨by omega, write_le p bs⟩
  length_read p n := p.length_read n

/-- The loop of `read_n` on a port is the general one on its system. -/
theorem loop_reading {i n : Nat} {k m : Nat} {t : Effort (Port × List UInt8)}
    (hm : t.count + m = n) (hnx : t.count = 0 → t.nx = 0) :
    (Effort.loop system.reading i n k t).dev = ((readLoop k m t.dev.1).port,
        Block.write t.dev.2 (i + t.count) (readLoop k m t.dev.1).bytes) ∧
      (Effort.loop system.reading i n k t).count =
        t.count + (readLoop k m t.dev.1).bytes.length ∧
      ((Effort.loop system.reading i n k t).count = 0 →
        (Effort.loop system.reading i n k t).nx = (readLoop k m t.dev.1).ret) := by
  induction k generalizing t m with
  | zero => exact ⟨rfl, rfl, hnx⟩
  | succ k ih =>
    rw [Effort.loop, readLoop]
    by_cases h0 : m = 0
    · rw [if_neg (by omega), if_pos h0]
      exact ⟨rfl, rfl, hnx⟩
    · have hrest : n - t.count = m := by omega
      have hlen := t.dev.1.length_read m
      obtain ⟨hlo, hhi⟩ := t.dev.1.read_told m
      obtain ⟨r, hr⟩ : ∃ r, t.dev.1.read m = r := ⟨_, rfl⟩
      have hcall : system.reading t.dev (i + t.count) (n - t.count) =
          (r.ret, r.port, Block.write t.dev.2 (i + t.count) r.bytes) := by
        rw [hrest, ← hr]
        rfl
      have hmax : maxTransfer < 2 ^ 31 := by decide
      rw [hr] at hlen hlo hhi
      have hint : toInt32 r.ret = r.ret := toInt32_of_lt _ (by omega) (by omega)
      rw [if_pos (by omega), if_neg h0, hcall, hr]
      dsimp only
      rw [hint]
      by_cases hpos : r.ret ≤ 0
      · have hnil : r.bytes = [] := List.eq_nil_of_length_eq_zero (by omega)
        rw [if_pos hpos, if_pos hpos, hnil]
        exact ⟨rfl, rfl, fun _ ↦ rfl⟩
      · rw [if_neg hpos, if_neg hpos]
        obtain ⟨h1, h2, h3⟩ := ih (m := m - r.bytes.length) (t := { t with
            dev := (r.port, Block.write t.dev.2 (i + t.count) r.bytes)
            count := t.count + r.ret.toNat
            nx := r.ret
            calls := t.calls ++ [{ start := i + t.count, len := n - t.count, res := r.ret }] })
          (by dsimp only; omega) (fun h ↦ by dsimp only at h; omega)
        refine ⟨?_, ?_, fun h ↦ h3 h⟩
        · rw [h1, Block.write_append, hlen, Nat.add_assoc]
        · rw [h2, List.length_append, hlen, Nat.add_assoc]

/-- `read_n` on a port is the general one on its system. -/
theorem readN_system (p : Port) (mem : List UInt8) (i n : Nat) :
    (TcpSocket.readN system p mem i n).ret = (p.readN n).ret ∧
      (TcpSocket.readN system p mem i n).dev = (p.readN n).port ∧
      (TcpSocket.readN system p mem i n).mem = Block.write mem i (p.readN n).bytes := by
  obtain ⟨h1, h2, h3⟩ := loop_reading (i := i) (k := n) (t := .start (p, mem))
    (Nat.zero_add n) (fun _ ↦ rfl)
  have hcount : (Effort.loop system.reading i n n (.start (p, mem))).count =
      (readLoop n n p).bytes.length := h2.trans (Nat.zero_add _)
  refine ⟨?_, congrArg Prod.fst h1, congrArg Prod.snd h1⟩
  rw [TcpSocket.readN, TcpSocket.finish]
  dsimp only
  rw [hcount, readN]
  by_cases h0 : (readLoop n n p).bytes.length = 0
  · rw [h3 (hcount.trans h0)]
    rfl
  · rw [if_neg fun h ↦ h0 h.1, if_neg fun h ↦ h0 h.1]

/-- The loop of `write_n` on a port is the general one on its system, over what is left of the
memory. -/
theorem loop_writing {i n : Nat} {mem : List UInt8} (hin : i + n ≤ mem.length) {k : Nat}
    {t : Effort (Port × List UInt8)} (ht : t.count ≤ n) (hmem : t.dev.2 = mem)
    (hnx : t.count = 0 → t.nx = 0) :
    (Effort.loop system.writing i n k t).dev.1 =
        (writeLoop k (Block.read mem (i + t.count) (n - t.count)) t.dev.1).2.2 ∧
      (Effort.loop system.writing i n k t).count =
        t.count + (writeLoop k (Block.read mem (i + t.count) (n - t.count)) t.dev.1).2.1 ∧
      ((Effort.loop system.writing i n k t).count = 0 →
        (Effort.loop system.writing i n k t).nx =
          (writeLoop k (Block.read mem (i + t.count) (n - t.count)) t.dev.1).1) := by
  induction k generalizing t with
  | zero => exact ⟨rfl, rfl, hnx⟩
  | succ k ih =>
    have hlen := Block.length_read mem (i + t.count) (n - t.count) (by omega)
    obtain ⟨bs, hbs⟩ : ∃ bs, Block.read mem (i + t.count) (n - t.count) = bs := ⟨_, rfl⟩
    rw [hbs] at hlen ⊢
    rw [Effort.loop, writeLoop]
    by_cases h0 : bs.length = 0
    · rw [if_neg (by omega), if_pos h0]
      exact ⟨rfl, rfl, hnx⟩
    · have hlo := t.dev.1.write_told bs
      have hhi := write_le_max t.dev.1 bs
      have hle := write_le t.dev.1 bs
      obtain ⟨r, hr⟩ : ∃ r, t.dev.1.write bs = r := ⟨_, rfl⟩
      have hcall : system.writing t.dev (i + t.count) (n - t.count) = (r.1, r.2, mem) := by
        rw [← hr, ← hbs, ← hmem]
        rfl
      have hmax : maxTransfer < 2 ^ 31 := by decide
      rw [hr] at hlo hhi hle
      have hint : toInt32 r.1 = r.1 := toInt32_of_lt _ (by omega) (by omega)
      rw [if_pos (by omega), if_neg h0, hcall, hr]
      dsimp only
      rw [hint]
      by_cases hpos : r.1 ≤ 0
      · rw [if_pos hpos, if_pos hpos]
        exact ⟨rfl, rfl, fun _ ↦ rfl⟩
      · rw [if_neg hpos, if_neg hpos]
        have hdrop : bs.drop r.1.toNat =
            Block.read mem (i + (t.count + r.1.toNat)) (n - (t.count + r.1.toNat)) := by
          rw [← hbs, Block.read, Block.read, List.drop_take, List.drop_drop, Nat.add_assoc,
            Nat.sub_sub]
        obtain ⟨h1, h2, h3⟩ := ih (t := { t with
            dev := (r.2, mem)
            count := t.count + r.1.toNat
            nx := r.1
            calls := t.calls ++ [{ start := i + t.count, len := n - t.count, res := r.1 }] })
          (by dsimp only; omega) rfl (fun h ↦ by dsimp only at h; omega)
        dsimp only at h1 h2 h3
        rw [hdrop]
        exact ⟨h1, by rw [h2, Nat.add_assoc], h3⟩

/-- `write_n` on a port is the general one on its system. -/
theorem writeN_system (p : Port) {mem : List UInt8} {i n : Nat} (hin : i + n ≤ mem.length) :
    (TcpSocket.writeN system p mem i n).ret = (p.writeN (Block.read mem i n)).1 ∧
      (TcpSocket.writeN system p mem i n).dev = (p.writeN (Block.read mem i n)).2 := by
  have hlen := Block.length_read mem i n hin
  obtain ⟨h1, h2, h3⟩ := loop_writing hin (k := n) (t := .start (p, mem)) (Nat.zero_le n) rfl
    (fun _ ↦ rfl)
  have hcount : (Effort.loop system.writing i n n (.start (p, mem))).count =
      (writeLoop n (Block.read mem i n) p).2.1 := h2.trans (Nat.zero_add _)
  rw [TcpSocket.writeN, TcpSocket.finish, writeN, hlen]
  dsimp only
  refine ⟨?_, h1⟩
  rw [hcount]
  by_cases h0 : (writeLoop n (Block.read mem i n) p).2.1 = 0
  · rw [h3 (hcount.trans h0)]
    rfl
  · rw [if_neg fun h ↦ h0 h.1, if_neg fun h ↦ h0 h.1]

end Port

/-- Two bytes arrive where four are asked for, and a buffer of three takes one behind the other. -/
theorem bestEffort_agree_port :
    (Fd.readN Port.system (.deliver [[1], [2]]) [0, 0, 0, 0] 0 4).ret = 2 ∧
    (Fd.readN Port.system (.deliver [[1], [2]]) [0, 0, 0, 0] 0 4).calls =
      [⟨0, 4, 1⟩, ⟨1, 3, 1⟩, ⟨2, 2, 0⟩] ∧
    Fd.readN Port.system (.deliver [[1], [2]]) [0, 0, 0, 0] 0 4 =
      TcpSocket.readN Port.system (.deliver [[1], [2]]) [0, 0, 0, 0] 0 4 ∧
    Fd.readBuf Port.system (.deliver [[1], [2]]) (.alloc [0, 0, 0]) =
      TcpSocket.readBuf Port.system (.deliver [[1], [2]]) (.alloc [0, 0, 0]) ∧
    Advances (.alloc [0, 0, 0])
      (Fd.readBuf Port.system (.deliver [[1], [2]]) (.alloc [0, 0, 0])) := by
  have h := bestEffort_agree Port.system (.deliver [[1], [2]]) [0, 0, 0, 0] 0 (n := 4) (by decide)
    (b := .alloc [0, 0, 0]) (by decide) (by decide)
  exact ⟨by decide, by decide, h.1.1, h.1.2.2.1, h.2.2.2.1.2⟩

end CtrlrFx.Io

import CtrlrFx.Base.Machine

/-!
# Sockets

`src/io/net/Socket.cpp`, `TcpAcceptor.cpp` and `TcpConnector.cpp`: objects that own handles of
the operating system and pass them on. The system gives out any handle that is not open, also
one that was open before, and each of its calls may fail. Handles outside an object are either
in the hands of the user or forgotten.
-/

namespace CtrlrFx.Io.Socket
open Base

/-- Classes of socket objects. -/
inductive Kind where
  | socket
  | tcpSocket
  | tcpAcceptor
  | tcpConnector
  deriving DecidableEq, Repr

/-- An object with its handle, `-1` for none; `CtrlrFx/Socket.h:62`. -/
structure Obj where
  kind : Kind
  sock : Int
  deriving DecidableEq, Repr

/-- The live objects, the handles that are open, those in the hands of the user, and for each
handle how often the system gave it out and how often it was closed. `stray` is set by closing
a handle that is not open. -/
structure Sys (Oid : Type) where
  objs : Oid → Option Obj
  isOpen : Nat → Bool
  user : Nat → Bool
  got : Nat → Nat
  closed : Nat → Nat
  stray : Bool

/-- What the system answers in `TcpAcceptor::open`: the handle of `socket`, and the results of
the other three calls. -/
structure OpenCalls where
  socket : Option Nat
  setsockopt : Int
  bind : Int
  listen : Int
  deriving DecidableEq, Repr

variable {Oid : Type}

namespace Sys

/-- `handle()` of an object; `CtrlrFx/Socket.h:91`. -/
def sock (s : Sys Oid) (o : Oid) : Int :=
  match s.objs o with
  | some x => x.sock
  | none => -1

/-! ### The system -/

/-- `::socket` and `::accept`, which give out a handle that is not open, or `-1`. -/
def osSocket (s : Sys Oid) : Option Nat → Option (Int × Sys Oid)
  | none => some (-1, s)
  | some h =>
    if s.isOpen h then none
    else some (h, { s with
      isOpen := Function.update s.isOpen h true
      got := Function.update s.got h (s.got h + 1) })

/-- `::close`. -/
def osClose (s : Sys Oid) (v : Int) : Sys Oid :=
  if s.isOpen v.toNat then
    { s with
      isOpen := Function.update s.isOpen v.toNat false
      closed := Function.update s.closed v.toNat (s.closed v.toNat + 1) }
  else { s with stray := true }

/-- The user keeps a handle. -/
def toUser (s : Sys Oid) (v : Int) : Sys Oid :=
  if 0 ≤ v then { s with user := Function.update s.user v.toNat true } else s

/-- The user passes on a handle it holds, or `-1`. -/
def fromUser (s : Sys Oid) : Option Nat → Option (Int × Sys Oid)
  | none => some (-1, s)
  | some h =>
    if s.user h then some (h, { s with user := Function.update s.user h false }) else none

/-! ### The objects -/

variable [DecidableEq Oid]

/-- `sock_ = v`. -/
def setSock (s : Sys Oid) (o : Oid) (v : Int) : Sys Oid :=
  { s with objs := Function.update s.objs o ((s.objs o).map fun x ↦ { x with sock := v }) }

/-- A new object over a handle. -/
def construct (s : Sys Oid) (o : Oid) (k : Kind) (v : Int) : Sys Oid :=
  { s with objs := Function.update s.objs o (some { kind := k, sock := v }) }

/-- `src/io/net/Socket.cpp:56–61`. -/
def release (s : Sys Oid) (o : Oid) : Int × Sys Oid := (s.sock o, s.setSock o (-1))

/-- `src/io/net/Socket.cpp:66–75`. -/
def close (s : Sys Oid) (o : Oid) : Sys Oid :=
  if 0 ≤ s.sock o then (s.release o).2.osClose (s.release o).1 else s

/-- `src/io/net/Socket.cpp:79–85`. -/
def reset (s : Sys Oid) (o : Oid) (v : Int) : Sys Oid :=
  if v ≠ s.sock o then (s.close o).setSock o v else s

/-- `operator=(Socket&)` of the base class, `src/io/net/Socket.cpp:89–94`. That of `TcpSocket` is
declared and nowhere defined. -/
def assign (s : Sys Oid) (o p : Oid) : Sys Oid :=
  if p ≠ o then (s.release p).2.reset o (s.release p).1 else s

/-- `operator=(SocketRef)` from the conversion of an object; `CtrlrFx/Socket.h:139–146`. -/
def assignRef (s : Sys Oid) (o p : Oid) : Sys Oid :=
  (s.release p).2.reset o (s.release p).1

/-- The constructors from an object or from the conversion of one; `CtrlrFx/Socket.h:74,137`. -/
def copy (s : Sys Oid) (o : Oid) (k : Kind) (p : Oid) : Sys Oid :=
  (s.release p).2.construct o k (s.release p).1

/-- `CtrlrFx/Socket.h:77`. -/
def destroy (s : Sys Oid) (o : Oid) : Sys Oid :=
  { s.close o with objs := Function.update (s.close o).objs o none }

/-- `TcpSocket::open`, with its result; `src/io/net/Socket.cpp:189–195`. -/
def tcpOpen (s : Sys Oid) (o : Oid) (h : Option Nat) : Option (Int × Sys Oid) :=
  if s.sock o = -1 then
    (s.osSocket h).map fun r ↦
      (if (r.2.reset o r.1).sock o = -1 then -1 else 0, r.2.reset o r.1)
  else some (0, s)

/-- `TcpAcceptor::open` behind `create()`, with its result;
`src/io/net/TcpAcceptor.cpp:27–54`. -/
def listenOn (s : Sys Oid) (o : Oid) (c : OpenCalls) : Int × Sys Oid :=
  if s.sock o = -1 then (s.sock o, s)
  else if c.setsockopt < 0 then (c.setsockopt, (s.release o).2)
  else if c.bind < 0 then (c.bind, (s.release o).2)
  else if c.listen < 0 then (c.listen, (s.release o).2)
  else (0, s)

/-- `TcpAcceptor::open`, with its result, for an address that is set or not;
`src/io/net/TcpAcceptor.cpp:16–54`. -/
def accOpen (s : Sys Oid) (o : Oid) (isSet : Bool) (c : OpenCalls) : Option (Int × Sys Oid) :=
  if s.sock o ≠ -1 then some (0, s)
  else if !isSet then some (-1, s)
  else (s.osSocket c.socket).map fun r ↦ (r.2.reset o r.1).listenOn o c

/-- `TcpAcceptor::accept`, whose result is a new object; `src/io/net/TcpAcceptor.cpp:58–64`. -/
def accept (s : Sys Oid) (o : Oid) (h : Option Nat) : Option (Sys Oid) :=
  (s.osSocket h).map fun r ↦ r.2.construct o .tcpSocket r.1

/-- `TcpConnector::connect`, with its result; `src/io/net/TcpConnector.cpp:18–27`. -/
def connect (s : Sys Oid) (o : Oid) (h : Option Nat) (ret : Int) : Option (Int × Sys Oid) :=
  (s.osSocket h).map fun r ↦
    (ret, if ret < 0 then ((r.2.reset o r.1).release o).2 else r.2.reset o r.1)

/-- The constructor of a connector; `src/io/net/TcpConnector.cpp:10–14`. -/
def newConnector (s : Sys Oid) (o : Oid) (h : Option Nat) (ret : Int) : Option (Sys Oid) :=
  (s.osSocket h).map fun r ↦
    if ret < 0 then ((r.2.construct o .tcpConnector r.1).release o).2
    else r.2.construct o .tcpConnector r.1

/-- Whether an object is live. -/
def live (s : Sys Oid) (o : Oid) : Bool := (s.objs o).isSome

/-- Whether an object is live and of one of these classes. -/
def isA (s : Sys Oid) (o : Oid) (ks : List Kind) : Bool :=
  (s.objs o).any fun x ↦ ks.contains x.kind

end Sys

/-- Steps, with the answers of the system. The user obtains and closes handles by itself, and
passes those it holds, or `-1`, to constructors and to `reset`. -/
inductive Act (Oid : Type) where
  | osSocket (h : Option Nat)
  | osClose (h : Nat)
  | default (o : Oid) (k : Kind)
  | fromHandle (o : Oid) (k : Kind) (h : Option Nat)
  | copy (o : Oid) (k : Kind) (p : Oid)
  | assign (o p : Oid)
  | assignRef (o p : Oid)
  | tcpOpen (o : Oid) (h : Option Nat)
  | newAcceptor (o : Oid) (isSet : Bool) (c : OpenCalls)
  | accOpen (o : Oid) (isSet : Bool) (c : OpenCalls)
  | accept (o p : Oid) (h : Option Nat)
  | newConnector (o : Oid) (h : Option Nat) (ret : Int)
  | connect (o : Oid) (h : Option Nat) (ret : Int)
  | reset (o : Oid) (h : Option Nat)
  | resetSelf (o : Oid)
  | release (o : Oid)
  | close (o : Oid)
  | destroy (o : Oid)

variable [DecidableEq Oid]

/-- One step. Constructors make objects that are not live yet, and copies are made of the
classes that are not declared non-copyable. -/
def step (s : Sys Oid) : Act Oid → Option (Sys Oid)
  | .osSocket h => (s.osSocket h).map fun r ↦ r.2.toUser r.1
  | .osClose h => (s.fromUser (some h)).map fun r ↦ r.2.osClose r.1
  | .default o k => if s.live o then none else some (s.construct o k (-1))
  | .fromHandle o k h =>
    if s.live o || k = .tcpAcceptor || k = .tcpConnector then none
    else (s.fromUser h).map fun r ↦ r.2.construct o k r.1
  | .copy o k p =>
    if s.live o || !s.live p || k = .tcpAcceptor || k = .tcpConnector then none
    else some (s.copy o k p)
  | .assign o p => if s.live o && s.live p then some (s.assign o p) else none
  | .assignRef o p => if s.live o && s.live p then some (s.assignRef o p) else none
  | .tcpOpen o h =>
    if s.isA o [.tcpSocket, .tcpConnector] then (s.tcpOpen o h).map (·.2) else none
  | .newAcceptor o isSet c =>
    if s.live o then none
    else ((s.construct o .tcpAcceptor (-1)).accOpen o isSet c).map (·.2)
  | .accOpen o isSet c =>
    if s.isA o [.tcpAcceptor] then (s.accOpen o isSet c).map (·.2) else none
  | .accept o p h => if !s.live o && s.isA p [.tcpAcceptor] then s.accept o h else none
  | .newConnector o h ret => if s.live o then none else s.newConnector o h ret
  | .connect o h ret =>
    if s.isA o [.tcpConnector] then (s.connect o h ret).map (·.2) else none
  | .reset o h =>
    if s.live o then (s.fromUser h).map fun r ↦ r.2.reset o r.1 else none
  | .resetSelf o => if s.live o then some (s.reset o (s.sock o)) else none
  | .release o =>
    if s.live o then some ((s.release o).2.toUser (s.release o).1) else none
  | .close o => if s.live o then some (s.close o) else none
  | .destroy o => if s.live o then some (s.destroy o) else none

/-- Nothing lives and nothing is open. -/
def start (Oid : Type) : Sys Oid :=
  { objs := fun _ ↦ none, isOpen := fun _ ↦ false, user := fun _ ↦ false, got := fun _ ↦ 0,
    closed := fun _ ↦ 0, stray := false }

/-- The objects and the handles. -/
def machine (Oid : Type) [DecidableEq Oid] : Machine (Sys Oid) (Act Oid) where
  init s := s = start Oid
  step := step

end CtrlrFx.Io.Socket

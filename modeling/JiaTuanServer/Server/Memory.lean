import JiaTuanServer.Library.LocalTriple
import Mathlib.Data.Int.Notation
import Mathlib.Data.Nat.Notation
import Mathlib.Logic.Function.Basic
import Mathlib.Tactic.Common

/-!
# The memory and the descriptors of server_threaded.c

The blocks that one call of `on_accept` allocates are named after the connection it accepts, the
`c`-th that `accept` returned: its `client_t`, output buffer, event base, bufferevent and job. A
descriptor is a number that the kernel gives out again as soon as it is closed, so
`descriptors` records which connection a number denotes at present.

Code that touches this memory is an `Op`. It faults where the C code would use a block that is not
allocated, free one twice, follow a null pointer or close a number that is not open. `touched`
lists the blocks that the last step used.
-/

namespace JiaTuanServer.Server

open LocalTriple

/-- What `on_accept` and the allocators of libevent allocate for a connection. -/
inductive Kind where
  | client
  | outputBuffer
  | evbase
  | bufEv
  | job
  deriving DecidableEq, Repr

/-- A block before its allocation, in use, and given back. -/
inductive Block where
  | absent
  | live
  | freed
  deriving DecidableEq, Repr

/-- `client_t`. Pointers name the connection whose block they point to. -/
structure Client where
  fd : ℤ
  evbase : Option ℕ
  bufEv : Option ℕ
  outputBuffer : Option ℕ
  deriving DecidableEq, Repr

/-- What memory holds for one connection. -/
structure Conn where
  /-- How often `close` hit the connection's descriptor. -/
  closes : ℕ
  block : Kind → Block
  client : Client
  /-- `job->user_data` -/
  userData : Option ℕ

structure Mem where
  descriptors : ℕ → Option ℕ
  /-- The number of connections that `accept` has returned. -/
  accepted : ℕ
  conn : ℕ → Conn
  touched : List (Kind × ℕ)

inductive Fault where
  | access (kind : Kind) (c : ℕ)
  | nullPointer
  | close (fd : ℤ)
  deriving DecidableEq, Repr

/-- Code that runs on the memory and may fault. -/
abbrev Op := StateT Mem (Except Fault)

namespace Mem

/-- Change what is held for connection `c`. -/
def setConn (m : Mem) (c : ℕ) (x : Conn) : Mem := { m with conn := Function.update m.conn c x }

/-- Note the use of a block. -/
def touch (m : Mem) (kind : Kind) (c : ℕ) : Mem := { m with touched := (kind, c) :: m.touched }

/-- Take the number `fd` from the connection that it denotes. -/
def forget (m : Mem) (fd : ℕ) : Mem :=
  { m with descriptors := Function.update m.descriptors fd none }

@[simp] theorem setConn_conn (m : Mem) (c : ℕ) (x : Conn) :
    (m.setConn c x).conn = Function.update m.conn c x := rfl

@[simp] theorem setConn_descriptors (m : Mem) (c : ℕ) (x : Conn) :
    (m.setConn c x).descriptors = m.descriptors := rfl

@[simp] theorem touch_conn (m : Mem) (kind : Kind) (c : ℕ) : (m.touch kind c).conn = m.conn := rfl

@[simp] theorem touch_descriptors (m : Mem) (kind : Kind) (c : ℕ) :
    (m.touch kind c).descriptors = m.descriptors := rfl

@[simp] theorem forget_conn (m : Mem) (fd : ℕ) : (m.forget fd).conn = m.conn := rfl

@[simp] theorem forget_descriptors (m : Mem) (fd : ℕ) :
    (m.forget fd).descriptors = Function.update m.descriptors fd none := rfl

/-- The memory looks the same to connection `c`. -/
def SameAt (m m' : Mem) (c : ℕ) : Prop :=
  m'.conn c = m.conn c ∧ ∀ n, m'.descriptors n = some c ↔ m.descriptors n = some c

/-- Only what belongs to connection `c` has changed. -/
def OnlyAt (m : Mem) (c : ℕ) (m' : Mem) : Prop :=
  m'.accepted = m.accepted ∧ (∀ d, d ≠ c → m.SameAt m' d) ∧
    ∀ x ∈ m'.touched, x ∈ m.touched ∨ x.2 = c

theorem OnlyAt.refl (m : Mem) (c : ℕ) : m.OnlyAt c m :=
  ⟨rfl, fun _ _ => ⟨rfl, fun _ => Iff.rfl⟩, fun _ => .inl⟩

theorem OnlyAt.trans {c : ℕ} {m m' m'' : Mem} (h : m.OnlyAt c m') (h' : m'.OnlyAt c m'') :
    m.OnlyAt c m'' := by
  obtain ⟨accepted, same, touched⟩ := h
  obtain ⟨accepted', same', touched'⟩ := h'
  refine ⟨accepted'.trans accepted, fun d hd => ⟨?_, fun n => ?_⟩, fun x hx => ?_⟩
  · exact (same' d hd).1.trans (same d hd).1
  · exact ((same' d hd).2 n).trans ((same d hd).2 n)
  · rcases touched' x hx with old | new
    · exact touched x old
    · exact .inr new

theorem onlyAt_setConn (m : Mem) (c : ℕ) (x : Conn) : m.OnlyAt c (m.setConn c x) :=
  ⟨rfl, fun _ hd => ⟨Function.update_of_ne hd _ _, fun _ => Iff.rfl⟩, fun _ => .inl⟩

theorem onlyAt_touch (m : Mem) (kind : Kind) (c : ℕ) : m.OnlyAt c (m.touch kind c) := by
  refine ⟨rfl, fun _ _ => ⟨rfl, fun _ => Iff.rfl⟩, fun x hx => ?_⟩
  rcases List.mem_cons.mp hx with rfl | hx
  · exact .inr rfl
  · exact .inl hx

theorem onlyAt_forget {m : Mem} {c fd : ℕ} (h : m.descriptors fd = some c) :
    m.OnlyAt c (m.forget fd) := by
  refine ⟨rfl, fun d hd => ⟨rfl, fun n => ?_⟩, fun _ => .inl⟩
  by_cases hn : n = fd
  · subst hn; simp [h, Ne.symm hd]
  · simp [hn]

end Mem

/-! ## The operations -/

/-- Use a block. -/
def access (kind : Kind) (c : ℕ) : Op Unit := do
  modify fun m => m.touch kind c
  unless ((← get).conn c).block kind = .live do throw (.access kind c)

/-- Follow a pointer that must not be null. -/
def deref : Option ℕ → Op ℕ
  | some c => pure c
  | none => throw .nullPointer

/-- A successful allocation. -/
def allocate (kind : Kind) (c : ℕ) : Op Unit :=
  modify fun m => m.setConn c
    { m.conn c with block := Function.update (m.conn c).block kind .live }

/-- `free` and the release functions of libevent. -/
def release (kind : Kind) (c : ℕ) : Op Unit := do
  access kind c
  modify fun m => m.setConn c
    { m.conn c with block := Function.update (m.conn c).block kind .freed }

def loadClient (c : ℕ) : Op Client := do
  access .client c
  return ((← get).conn c).client

def storeClient (c : ℕ) (x : Client) : Op Unit := do
  access .client c
  modify fun m => m.setConn c { m.conn c with client := x }

def loadUserData (job : ℕ) : Op (Option ℕ) := do
  access .job job
  return ((← get).conn job).userData

def storeUserData (job : ℕ) (x : Option ℕ) : Op Unit := do
  access .job job
  modify fun m => m.setConn job { m.conn job with userData := x }

/-- `close(fd)`: the number is free again. -/
def close (fd : ℤ) : Op Unit := do
  let m ← get
  match if 0 ≤ fd then m.descriptors fd.toNat else none with
  | some c =>
    set ((m.forget fd.toNat).setConn c { m.conn c with closes := (m.conn c).closes + 1 })
  | none => throw (.close fd)

/-- `closeClient` -/
def closeClient (client : Option ℕ) : Op Unit := do
  if let some c := client then
    let x ← loadClient c
    if 0 ≤ x.fd then
      close x.fd
      storeClient c { x with fd := -1 }

/-- `if (client->p != NULL) { release(client->p); client->p = NULL; }` -/
def releaseField (c : ℕ) (kind : Kind) (field : Client → Option ℕ) (clear : Client → Client) :
    Op Unit := do
  if let some b := field (← loadClient c) then
    release kind b
    storeClient c (clear (← loadClient c))

/-- `closeAndFreeClient` after its call of `closeClient`. -/
def freeClient (client : Option ℕ) : Op Unit := do
  if let some c := client then
    releaseField c .bufEv Client.bufEv fun x => { x with bufEv := none }
    releaseField c .evbase Client.evbase fun x => { x with evbase := none }
    releaseField c .outputBuffer Client.outputBuffer fun x => { x with outputBuffer := none }
    release .client c

/-! ## What the operations do

All of them work on the part of the memory that belongs to one connection. -/

/-- The number that denotes the connection, and what memory holds for it. -/
abbrev View := Option ℕ × Conn

/-- The part of the memory that belongs to connection `c`. -/
def connPart (c : ℕ) : Part Mem View where
  Sees m v := m.conn c = v.2 ∧ ∀ n, m.descriptors n = some c ↔ v.1 = some n
  Frame m m' := m.OnlyAt c m'
  refl m := .refl m c
  trans _ _ _ := .trans

variable {c fd : ℕ} {number : Option ℕ} {kind : Kind} {x : Conn}

/-- A change of what memory holds for the connection. -/
theorem modify_does (f : Conn → Conn) :
    Does (connPart c) (ε := Fault) (modify fun m => m.setConn c (f (m.conn c)))
      (number, x) () (number, f x) := by
  rintro m ⟨rfl, hn⟩
  exact ⟨_, rfl, m.onlyAt_setConn c _, by simp, hn⟩

theorem access_does (h : x.block kind = .live) :
    Does (connPart c) (access kind c) (number, x) () (number, x) := by
  rintro m ⟨rfl, hn⟩
  refine ⟨m.touch kind c, ?_, m.onlyAt_touch kind c, rfl, hn⟩
  simp [access, h]
  rfl

theorem allocate_does (kind : Kind) : Does (connPart c) (allocate kind c) (number, x) ()
    (number, { x with block := Function.update x.block kind .live }) :=
  modify_does fun x => { x with block := Function.update x.block kind .live }

theorem release_does (h : x.block kind = .live) : Does (connPart c) (release kind c) (number, x) ()
    (number, { x with block := Function.update x.block kind .freed }) :=
  (access_does h).bind
    (modify_does fun x => { x with block := Function.update x.block kind .freed })

theorem loadClient_does (h : x.block .client = .live) :
    Does (connPart c) (loadClient c) (number, x) x.client (number, x) := by
  refine (access_does h).bind ?_
  rintro m ⟨rfl, hn⟩
  exact ⟨m, rfl, .refl m c, rfl, hn⟩

theorem storeClient_does (h : x.block .client = .live) (y : Client) :
    Does (connPart c) (storeClient c y) (number, x) () (number, { x with client := y }) :=
  (access_does h).bind (modify_does fun x => { x with client := y })

theorem loadUserData_does (h : x.block .job = .live) :
    Does (connPart c) (loadUserData c) (number, x) x.userData (number, x) := by
  refine (access_does h).bind ?_
  rintro m ⟨rfl, hn⟩
  exact ⟨m, rfl, .refl m c, rfl, hn⟩

theorem storeUserData_does (h : x.block .job = .live) (y : Option ℕ) :
    Does (connPart c) (storeUserData c y) (number, x) () (number, { x with userData := y }) :=
  (access_does h).bind (modify_does fun x => { x with userData := y })

theorem close_does : Does (connPart c) (close fd) (some fd, x) ()
    (none, { x with closes := x.closes + 1 }) := by
  rintro m ⟨rfl, hn⟩
  have hd : m.descriptors fd = some c := (hn fd).mpr rfl
  refine ⟨_, by simp [close, hd]; rfl,
    (Mem.onlyAt_forget hd).trans (Mem.onlyAt_setConn _ c _), by simp, fun n => ?_⟩
  by_cases h : n = fd
  · simp [h]
  · have other : m.descriptors n ≠ some c := fun e => h (Option.some.inj ((hn n).mp e)).symm
    simp [h, other]

/-- `closeClient` closes the number that the client still has. -/
theorem closeClient_open_does (h : x.block .client = .live) (hfd : x.client.fd = fd) :
    Does (connPart c) (closeClient (some c)) (some fd, x) ()
      (none, { x with closes := x.closes + 1, client := { x.client with fd := -1 } }) := by
  refine (loadClient_does h).bind ?_
  have body : Does (connPart c) (do close fd; storeClient c { x.client with fd := -1 })
      (some fd, x) () _ :=
    close_does.bind (storeClient_does (x := { x with closes := x.closes + 1 }) h _)
  simpa [hfd] using body

/-- A second `closeClient` does nothing. -/
theorem closeClient_closed_does (h : x.block .client = .live) (hfd : x.client.fd = -1) :
    Does (connPart c) (closeClient (some c)) (number, x) () (number, x) := by
  refine (loadClient_does h).bind ?_
  simpa [hfd] using Does.pure ()

/-- A pointer field of `client_t` whose block belongs to connection `c`. -/
def pointer (x : Conn) (kind : Kind) (c : ℕ) : Option ℕ :=
  if x.block kind = .live then some c else none

/-- The `client_t` points to the live blocks of its connection. -/
structure Conn.Linked (x : Conn) (c : ℕ) : Prop where
  client : x.block .client = .live
  bufEv : x.client.bufEv = pointer x .bufEv c
  evbase : x.client.evbase = pointer x .evbase c
  outputBuffer : x.client.outputBuffer = pointer x .outputBuffer c

/-- A block after `closeAndFreeClient`. -/
def Block.release : Block → Block
  | .live => .freed
  | b => b

/-- The connection without one of its blocks. -/
def Conn.without (x : Conn) (kind : Kind) (clear : Client → Client) : Conn :=
  { x with block := Function.update x.block kind (x.block kind).release
           client := clear x.client }

theorem releaseField_does {field : Client → Option ℕ} {clear : Client → Client}
    (hc : x.block .client = .live) (hk : kind ≠ .client) (hp : field x.client = pointer x kind c)
    (idle : ∀ y, field y = none → clear y = y) :
    Does (connPart c) (releaseField c kind field clear) (number, x) ()
      (number, x.without kind clear) := by
  refine (loadClient_does hc).bind ?_
  by_cases live : x.block kind = .live
  · have hc' : Function.update x.block kind .freed .client = .live := by simpa [Ne.symm hk] using hc
    have body : Does (connPart c) (do release kind c; storeClient c (clear (← loadClient c)))
        (number, x) () _ :=
      (release_does live).bind ((loadClient_does hc').bind (storeClient_does hc' _))
    simpa [hp, pointer, live, Block.release, Conn.without] using body
  · have null : field x.client = none := by simp [hp, pointer, live]
    have same : (x.block kind).release = x.block kind := by
      cases h : x.block kind <;> simp_all [Block.release]
    simpa [null, same, idle _ null, Conn.without] using Does.pure ()

/-- `freeClient` gives back every block of the connection but its job. -/
theorem freeClient_does (h : x.Linked c) : Does (connPart c) (freeClient (some c)) (number, x) ()
    (number, { x with
      block := fun k => if k = .job then x.block k else (x.block k).release
      client := { x.client with bufEv := none, evbase := none, outputBuffer := none } }) := by
  let x₁ := x.without .bufEv fun y => { y with bufEv := none }
  let x₂ := x₁.without .evbase fun y => { y with evbase := none }
  let x₃ := x₂.without .outputBuffer fun y => { y with outputBuffer := none }
  have bufEv : Does (connPart c) (releaseField c .bufEv Client.bufEv _) (number, x) ()
      (number, x₁) :=
    releaseField_does h.client (by simp) h.bufEv fun y e => by cases y; simp_all
  have evbase : Does (connPart c) (releaseField c .evbase Client.evbase _) (number, x₁) ()
      (number, x₂) :=
    releaseField_does (by simpa [x₁, Conn.without] using h.client) (by simp)
      (by simpa [x₁, Conn.without, pointer] using h.evbase) fun y e => by cases y; simp_all
  have outputBuffer : Does (connPart c) (releaseField c .outputBuffer Client.outputBuffer _)
      (number, x₂) () (number, x₃) :=
    releaseField_does (by simpa [x₁, x₂, Conn.without] using h.client) (by simp)
      (by simpa [x₁, x₂, Conn.without, pointer] using h.outputBuffer) fun y e => by
        cases y; simp_all
  have client : x₃.block .client = .live := by simpa [x₁, x₂, x₃, Conn.without] using h.client
  refine (bufEv.bind (evbase.bind (outputBuffer.bind (release_does client)))).of_eq ?_
  simp only [x₁, x₂, x₃, Conn.without, Prod.mk.injEq, Conn.mk.injEq, true_and, and_true]
  funext k
  cases k <;> simp [h.client, Block.release]

end JiaTuanServer.Server

import JiaTuanServer.Libevent.Chain

/-!
# Evbuffers

An evbuffer is a list of chains with a pointer to the place where the last chain with data is linked
in. The chains behind that one are empty and wait to be filled. `Valid` is what `_evbuffer_validate`
in the tests of libevent checks (`evbufferValidate_iff`).

Taking bytes out at the front and handing all chains to another evbuffer are here. The evbuffer
callbacks are not; the one that the server's buffers have is `bufferevent_socket_outbuf_cb`.
-/

namespace JiaTuanServer.Libevent

open Memory
open Request (Bytes)

structure Evbuffer where
  /-- The chains from `first` to `last`. -/
  chains : List EvbufferChain
  /-- `last_with_datap`: `0` is `&buf->first`, and `k + 1` is `&chain->next` of chain `k`. So
  `*last_with_datap` is the chain of that number, or null if there is none. -/
  lastWithDatap : ℕ
  totalLen : ℕ
  freezeStart : Bool
  freezeEnd : Bool
  deriving DecidableEq

namespace Evbuffer

/-- `evbuffer_new` -/
def new : Evbuffer := ⟨[], 0, 0, false, false⟩

/-- `evbuffer_freeze(buf, start)` and `evbuffer_unfreeze(buf, start)` -/
def setFreeze (buf : Evbuffer) (start frozen : Bool) : Evbuffer :=
  if start then { buf with freezeStart := frozen } else { buf with freezeEnd := frozen }

/-- The bytes in some chains. -/
def bytesOf (chains : List EvbufferChain) : Bytes := chains.flatMap EvbufferChain.data

/-- The bytes in the buffer. -/
def content (buf : Evbuffer) : Bytes := bytesOf buf.chains

/-- `evbuffer_chains_all_empty` -/
def AllEmpty (chains : List EvbufferChain) : Prop := ∀ chain ∈ chains, chain.off = 0

instance (chains : List EvbufferChain) : Decidable (AllEmpty chains) :=
  inferInstanceAs (Decidable (∀ chain ∈ chains, chain.off = 0))

/-! ## Valid buffers -/

/-- Where `last_with_datap` points: at the last chain with data, or without any at the first one. -/
inductive Shape : List EvbufferChain → ℕ → Prop where
  | none : Shape [] 0
  | linked (front : List EvbufferChain) {behind : List EvbufferChain} {chain : EvbufferChain}
      (first : chain.off = 0 → front = []) (rest : AllEmpty behind) :
      Shape (front ++ chain :: behind) front.length

structure Valid (buf : Evbuffer) : Prop where
  total : buf.totalLen = buf.content.length
  shape : Shape buf.chains buf.lastWithDatap

/-- There is no empty chain behind `*last_with_datap`. -/
def Settled (buf : Evbuffer) : Prop := buf.chains.length ≤ buf.lastWithDatap + 1

instance (buf : Evbuffer) : Decidable buf.Settled := inferInstanceAs (Decidable (_ ≤ _))

/-- `_evbuffer_validate`. That `buf->last` is the last chain and that the data fit into each chain
hold of every evbuffer here. -/
def evbufferValidate (buf : Evbuffer) : Bool :=
  (buf.chains != [] || buf.totalLen == 0) &&
  (buf.chains == [] || (buf.chains[buf.lastWithDatap]?).isSome) &&
  (match buf.chains[buf.lastWithDatap]? with
    | some chain =>
      (if chain.off = 0 ∨ buf.totalLen = 0 then
        chain.off == 0 && buf.lastWithDatap == 0 && buf.totalLen == 0
      else true) && AllEmpty (buf.chains.drop (buf.lastWithDatap + 1))
    | none => buf.lastWithDatap == 0) &&
  -- found_last_with_datap
  (buf.lastWithDatap == 0 || buf.lastWithDatap ≤ buf.chains.length) &&
  (buf.chains.map EvbufferChain.off).sum == buf.totalLen

variable {buf : Evbuffer} {chains front behind : List EvbufferChain} {chain : EvbufferChain}
  {lwd : ℕ}

@[simp] theorem bytesOf_nil : bytesOf [] = [] := rfl

@[simp] theorem bytesOf_cons : bytesOf (chain :: chains) = chain.data ++ bytesOf chains := rfl

@[simp] theorem bytesOf_append : bytesOf (front ++ behind) = bytesOf front ++ bytesOf behind :=
  List.flatMap_append

theorem bytesOf_eq_nil_iff : bytesOf chains = [] ↔ AllEmpty chains := by
  simp [bytesOf, AllEmpty, List.flatMap_eq_nil_iff]

theorem length_bytesOf (chains : List EvbufferChain) :
    (bytesOf chains).length = (chains.map EvbufferChain.off).sum := by
  induction chains with
  | nil => rfl
  | cons chain chains ih =>
    simp [ih, EvbufferChain.length_data]

/-- With data in the buffer, `*last_with_datap` is the last chain that has some. -/
theorem Shape.split (shape : Shape chains lwd) (some : bytesOf chains ≠ []) :
    ∃ front chain behind, chains = front ++ chain :: behind ∧ lwd = front.length ∧
      chain.off ≠ 0 ∧ AllEmpty behind := by
  cases shape with
  | none => exact (some rfl).elim
  | @linked front behind chain first rest =>
    refine ⟨front, chain, behind, rfl, rfl, fun empty => some ?_, rest⟩
    rw [first empty, List.nil_append, bytesOf_eq_nil_iff]
    exact List.forall_mem_cons.mpr ⟨empty, rest⟩

theorem valid_new : new.Valid := ⟨rfl, .none⟩

theorem AllEmpty.sum_eq_zero (empty : AllEmpty chains) :
    (chains.map EvbufferChain.off).sum = 0 := by
  rw [← length_bytesOf, bytesOf_eq_nil_iff.mpr empty]
  rfl

theorem evbufferValidate_iff : buf.evbufferValidate = true ↔ buf.Valid := by
  constructor
  · intro checked
    simp only [evbufferValidate, Bool.and_eq_true, beq_iff_eq] at checked
    obtain ⟨⟨⟨⟨-, linked⟩, pointed⟩, -⟩, sum⟩ := checked
    have total : buf.totalLen = buf.content.length := by
      rw [content, length_bytesOf, sum]
    refine ⟨total, ?_⟩
    cases at_pointer : buf.chains[buf.lastWithDatap]? with
    | none =>
      rw [at_pointer] at linked pointed
      have none : buf.chains = [] := by simpa using linked
      have first : buf.lastWithDatap = 0 := by simpa using pointed
      rw [none, first]
      exact .none
    | some chain =>
      rw [at_pointer] at pointed
      obtain ⟨inside, eq⟩ := List.getElem?_eq_some_iff.mp at_pointer
      have split : buf.chains = buf.chains.take buf.lastWithDatap ++
          chain :: buf.chains.drop (buf.lastWithDatap + 1) := by
        rw [← eq, ← List.drop_eq_getElem_cons inside, List.take_append_drop]
      have length : (buf.chains.take buf.lastWithDatap).length = buf.lastWithDatap := by
        rw [List.length_take]
        omega
      simp only [Bool.and_eq_true, decide_eq_true_eq] at pointed
      obtain ⟨zero, rest⟩ := pointed
      have first : chain.off = 0 → buf.chains.take buf.lastWithDatap = [] := by
        intro empty
        rw [if_pos (.inl empty), Bool.and_eq_true, Bool.and_eq_true, beq_iff_eq, beq_iff_eq] at zero
        rw [zero.1.2, List.take_zero]
      have shape := Shape.linked _ first rest
      rwa [length, ← split] at shape
  · rintro ⟨total, shape⟩
    have sum : (buf.chains.map EvbufferChain.off).sum = buf.totalLen := by
      rw [total, content, length_bytesOf]
    obtain ⟨chains, lwd, totalLen, freezeStart, freezeEnd⟩ := buf
    simp only at shape sum
    subst sum
    cases shape with
    | none => rfl
    | @linked front behind chain first rest =>
      by_cases empty : chain.off = 0
      · simp [evbufferValidate, first empty, empty, rest, rest.sum_eq_zero]
      · simp [evbufferValidate, empty, rest]

end Evbuffer

end JiaTuanServer.Libevent

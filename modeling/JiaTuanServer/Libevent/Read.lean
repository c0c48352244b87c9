import JiaTuanServer.Libevent.Add
import JiaTuanServer.Request.InputBuffer

/-!
# Reading from a socket into an evbuffer

`evbuffer_read` makes room in the last chains (`_evbuffer_expand_fast`), offers the room to `readv`
(`_evbuffer_read_setup_vecs`), and then counts the bytes that came into the chains. The room is for
exactly the number of bytes asked for (`expandFast_ok`, `readSetupVecs_ok`), no chain gets more than
fits into it, and `last_with_datap` ends at the last chain that got something (`read_ok`).
-/

namespace JiaTuanServer.Libevent

open Request (Bytes)

/-- `readv` into pieces of these lengths: the bytes, or `none` for `-1`. -/
structure Readv where
  got : List ℕ → Option Bytes
  bounded : ∀ lengths bytes, got lengths = some bytes → bytes.length ≤ lengths.sum

namespace Evbuffer

/-! ## _evbuffer_expand_fast -/

/-- How the loop of `_evbuffer_expand_fast` ends: there is enough space, or no chain is left, or `n`
chains are used. -/
inductive Room where
  | enough
  | ranOff (avail : ℕ)
  | usedUp

/-- The loop of `_evbuffer_expand_fast`, with the chains it moves to the front of their memory. -/
def expandLoop (datlen n : ℕ) :
    Bool → ℕ → ℕ → List EvbufferChain → Except Fault (Room × List EvbufferChain)
  | _, avail, _, [] => pure (.ranOff avail, [])
  | start, avail, used, chain :: chains =>
    -- EVUTIL_ASSERT(chain == *buf->last_with_datap)
    if chain.off ≠ 0 ∧ start = false then throw .assertion
    else
      let chain := if chain.off = 0 then chain.rewind else chain
      let used := if chain.off = 0 ∨ chain.spaceLen ≠ 0 then used + 1 else used
      let avail := avail + chain.spaceLen
      if avail ≥ datlen then pure (.enough, chain :: chains)
      else if used = n then pure (.usedUp, chain :: chains)
      else do
        let (room, chains) ← expandLoop datlen n false avail used chains
        pure (room, chain :: chains)

/-- The end of `_evbuffer_expand_fast`: one chain in place of all the empty ones. -/
def replaceEmpty (buf : Evbuffer) (malloc : Malloc) (datlen : ℕ) : Except Fault (ℤ × Evbuffer) :=
  match buf.chains.drop buf.lastWithDatap with
  | [] => throw .null
  | chain :: behind =>
    if chain.off = 0 then
      if buf.lastWithDatap ≠ 0 ∨ ¬ AllEmpty behind then throw .assertion
      else match evbufferChainNew malloc datlen with
        | none => pure (-1, buf.zeroChain)
        | some tmp => pure (0, { buf with chains := [tmp], lastWithDatap := 0 })
    else
      if ¬ AllEmpty behind ∨ datlen < chain.spaceLen then throw .assertion
      else
        let front := buf.chains.take buf.lastWithDatap ++ [chain]
        match evbufferChainNew malloc (datlen - chain.spaceLen) with
        | none => pure (-1, { buf with chains := front })
        | some tmp => pure (0, { buf with chains := front ++ [tmp] })

/-- `_evbuffer_expand_fast` -/
def expandFast (buf : Evbuffer) (malloc : Malloc) (datlen n : ℕ) :
    Except Fault (ℤ × Evbuffer) :=
  if n < 2 then throw .assertion
  else if buf.chains = [] then
    match evbufferChainNew malloc datlen with
    | none => pure (-1, buf)
    | some chain => do
      let buf ← buf.chainInsert chain
      pure (0, buf)
  else do
    let (room, tail) ← expandLoop datlen n true 0 0 (buf.chains.drop buf.lastWithDatap)
    let buf := { buf with chains := buf.chains.take buf.lastWithDatap ++ tail }
    match room with
    | .enough => pure (0, buf)
    | .ranOff avail => match evbufferChainNew malloc (datlen - avail) with
      | none => pure (-1, buf)
      | some tmp => pure (0, { buf with chains := buf.chains ++ [tmp] })
    | .usedUp => buf.replaceEmpty malloc datlen

/-! ## evbuffer_read -/

/-- `NUM_READ_IOVEC` -/
def numReadIovec : ℕ := 4

/-- The loop of `_evbuffer_read_setup_vecs`: the lengths of the pieces. -/
def setupLoop (howmuch : ℕ) (exact : Bool) : ℕ → ℕ → List EvbufferChain → Except Fault (List ℕ)
  | 0, _, _ => pure []
  | i + 1, soFar, chains =>
    if soFar < howmuch then
      match chains with
      | [] => throw .null
      | chain :: chains => do
        let avail :=
          if chain.spaceLen > howmuch - soFar ∧ exact then howmuch - soFar else chain.spaceLen
        let vecs ← setupLoop howmuch exact i (soFar + avail) chains
        pure (avail :: vecs)
    else pure []

/-- `_evbuffer_read_setup_vecs`: the lengths of the pieces, and `*chainp` in the manner of
`last_with_datap`. -/
def readSetupVecs (buf : Evbuffer) (howmuch n : ℕ) (exact : Bool) : Except Fault (List ℕ × ℕ) :=
  match buf.chains[buf.lastWithDatap]? with
  | none => throw .null
  | some chain => do
    let firstchainp :=
      if chain.spaceLen = 0 then buf.lastWithDatap + 1 else buf.lastWithDatap
    let vecs ← setupLoop howmuch exact n 0 (buf.chains.drop firstchainp)
    pure (vecs, firstchainp)

/-- What `readv` does with the bytes: each piece is filled before the next one. -/
def scatter : List ℕ → List EvbufferChain → Bytes → Except Fault (List EvbufferChain)
  | [], chains, _ => pure chains
  | _ :: _, [], _ => throw .null
  | len :: lens, chain :: chains, bytes => do
    let chain ← chain.memcpy (chain.misalign + chain.off) (bytes.take len)
    let chains ← scatter lens chains (bytes.drop len)
    pure (chain :: chains)

/-- The loop at the end of `evbuffer_read`: the chains from `*chainp` on, and `last_with_datap`. -/
def commitLoop :
    ℕ → ℕ → ℕ → List EvbufferChain → ℕ → Except Fault (List EvbufferChain × ℕ)
  | 0, _, _, chains, lwd => pure (chains, lwd)
  | _ + 1, _, _, [], _ => throw .null
  | i + 1, remaining, chainp, chain :: chains, lwd =>
    let space := if chain.spaceLen > evbufferChainMax then evbufferChainMax else chain.spaceLen
    if space < remaining then do
      let chain ← chain.extend space
      let (chains, lwd) ← commitLoop i (remaining - space) (chainp + 1) chains lwd
      pure (chain :: chains, lwd)
    else do
      let chain ← chain.extend remaining
      pure (chain :: chains, chainp)

/-- `evbuffer_read`: the result, and the bytes that came in. `readable` is what
`get_n_bytes_readable_on_socket` returns. -/
def read (buf : Evbuffer) (malloc : Malloc) (readable howmuch : ℤ) (readv : Readv) :
    Except Fault (ℤ × Bytes × Evbuffer) :=
  if buf.freezeEnd then pure (-1, [], buf)
  else do
    let howmuch := (Request.Evbuffer.readSize readable howmuch).toNat
    let (expanded, buf) ← buf.expandFast malloc howmuch numReadIovec
    if expanded = -1 then pure (-1, [], buf)
    else do
      let (vecs, chainp) ← buf.readSetupVecs howmuch numReadIovec true
      match readv.got vecs with
      | none => pure (-1, [], buf)
      | some [] => pure (0, [], buf)
      | some bytes => do
        let chains ← scatter vecs (buf.chains.drop chainp) bytes
        let (chains, lwd) ←
          commitLoop vecs.length bytes.length chainp chains buf.lastWithDatap
        pure (bytes.length, bytes,
          { buf with
            chains := buf.chains.take chainp ++ chains
            lastWithDatap := lwd
            totalLen := buf.totalLen + bytes.length })

/-! ## Room for a read -/

/-- The free space of some chains. -/
def spaces (chains : List EvbufferChain) : ℕ := (chains.map EvbufferChain.spaceLen).sum

/-- The chains without the first one if that has no space. -/
def fromSpace : List EvbufferChain → List EvbufferChain
  | [] => []
  | chain :: chains => if chain.spaceLen = 0 then chains else chain :: chains

variable {buf : Evbuffer} {front behind chains : List EvbufferChain} {chain tmp : EvbufferChain}
  {malloc : Malloc} {datlen n avail used : ℕ}

@[simp] theorem spaces_nil : spaces [] = 0 := rfl

@[simp] theorem spaces_cons : spaces (chain :: chains) = chain.spaceLen + spaces chains := rfl

@[simp] theorem spaces_append : spaces (front ++ behind) = spaces front + spaces behind := by
  simp [spaces]

@[simp] theorem spaces_fromSpace (chains : List EvbufferChain) :
    spaces (fromSpace chains) = spaces chains := by
  cases chains with
  | nil => rfl
  | cons chain chains =>
    rw [fromSpace]
    split
    · rename_i zero
      rw [spaces_cons, zero, Nat.zero_add]
    · rfl

theorem spaces_take_le (chains : List EvbufferChain) {k n : ℕ} (le : k ≤ n) :
    spaces (chains.take k) ≤ spaces (chains.take n) := by
  induction chains generalizing k n with
  | nil => simp
  | cons chain chains ih =>
    cases k with
    | zero => simp
    | succ k =>
      cases n with
      | zero => omega
      | succ n =>
        have rest := ih (show k ≤ n by omega)
        simp only [List.take_succ_cons, spaces_cons]
        omega

/-- What the loop finds behind `*last_with_datap`. -/
theorem expandLoop_behind (datlen avail : ℕ) (rest : AllEmpty chains) (few : used < n) :
    ∃ room chains', expandLoop datlen n false avail used chains = .ok (room, chains') ∧
      AllEmpty chains' ∧
      match room with
      | .enough => datlen ≤ avail + spaces (chains'.take (n - used))
      | .ranOff all => all = avail + spaces chains' ∧ used + chains'.length < n
      | .usedUp => True := by
  induction chains generalizing avail used with
  | nil => exact ⟨.ranOff avail, [], rfl, rest, rfl, few⟩
  | cons chain chains ih =>
    obtain ⟨empty, rest⟩ := List.forall_mem_cons.mp rest
    have rewound : chain.rewind.off = 0 := empty
    have next : n - used = n - (used + 1) + 1 := by omega
    simp only [expandLoop, empty, rewound, ne_eq, not_true_eq_false, false_and, if_false, if_true,
      true_or]
    split
    · rename_i enough
      refine ⟨.enough, _, rfl, List.forall_mem_cons.mpr ⟨empty, rest⟩, ?_⟩
      simp only
      rw [next, List.take_succ_cons, spaces_cons]
      omega
    split
    · exact ⟨.usedUp, _, rfl, List.forall_mem_cons.mpr ⟨empty, rest⟩, trivial⟩
    · obtain ⟨room, chains', run, rest', found⟩ :=
        ih (avail + chain.rewind.spaceLen) rest (show used + 1 < n by omega)
      refine ⟨room, chain.rewind :: chains', ?_, List.forall_mem_cons.mpr ⟨empty, rest'⟩, ?_⟩
      · rw [run]
        rfl
      · cases room with
        | enough =>
          simp only at found ⊢
          rw [next, List.take_succ_cons, spaces_cons]
          omega
        | ranOff all =>
          simp only [spaces_cons, List.length_cons] at found ⊢
          omega
        | usedUp => trivial

/-- What the loop finds from `*last_with_datap` on. -/
theorem expandLoop_ok (datlen : ℕ) (chain : EvbufferChain) (rest : AllEmpty behind) (two : 2 ≤ n) :
    ∃ room chain' behind',
      expandLoop datlen n true 0 0 (chain :: behind) = .ok (room, chain' :: behind') ∧
      AllEmpty behind' ∧ chain'.data = chain.data ∧ chain'.off = chain.off ∧
      match room with
      | .enough => datlen ≤ spaces ((fromSpace (chain' :: behind')).take n)
      | .ranOff all => all = spaces (chain' :: behind') ∧ (fromSpace (chain' :: behind')).length < n
      | .usedUp => chain'.spaceLen < datlen := by
  have nonzero : n - 1 + 1 = n := by omega
  generalize moved : (if chain.off = 0 then chain.rewind else chain) = chain'
  have off : chain'.off = chain.off := by
    subst moved
    split <;> rfl
  have data : chain'.data = chain.data := by
    subst moved
    split
    · rename_i empty
      have rewound : chain.rewind.data = [] := EvbufferChain.data_eq_nil_iff.mpr empty
      rw [rewound, EvbufferChain.data_eq_nil_iff.mpr empty]
    · rfl
  simp only [expandLoop, Bool.true_eq_false, and_false, if_false, moved, Nat.zero_add]
  split
  · rename_i enough
    refine ⟨.enough, chain', behind, rfl, rest, data, off, ?_⟩
    simp only [fromSpace]
    split
    · omega
    · rw [← nonzero, List.take_succ_cons, spaces_cons]
      omega
  rename_i less
  generalize counted : (if chain'.off = 0 ∨ chain'.spaceLen ≠ 0 then 1 else 0) = used
  have one : used ≤ 1 := by
    split at counted <;> omega
  have small : used < n := by omega
  rw [if_neg (by omega)]
  obtain ⟨room, behind', run, rest', found⟩ :=
    expandLoop_behind datlen chain'.spaceLen rest small
  refine ⟨room, chain', behind', ?_, rest', data, off, ?_⟩
  · rw [run]
    rfl
  · cases room with
    | enough =>
      simp only [fromSpace] at found ⊢
      split
      · rename_i zero
        have le := spaces_take_le behind' (show n - used ≤ n by omega)
        omega
      · rename_i some
        rw [if_pos (.inr some)] at counted
        rw [← nonzero, List.take_succ_cons, spaces_cons, counted]
        exact found
    | ranOff all =>
      simp only [fromSpace, spaces_cons] at found ⊢
      refine ⟨found.1, ?_⟩
      split
      · omega
      · rename_i some
        rw [if_pos (.inr some)] at counted
        rw [List.length_cons]
        omega
    | usedUp =>
      simp only
      omega

/-- There is space for `datlen` bytes in `n` chains, `*last_with_datap` and those behind it. -/
def Ready (buf : Evbuffer) (datlen n : ℕ) : Prop :=
  ∃ front chain behind, buf.chains = front ++ chain :: behind ∧ buf.lastWithDatap = front.length ∧
    (chain.off = 0 → front = []) ∧ AllEmpty behind ∧
    datlen ≤ spaces ((fromSpace (chain :: behind)).take n)

/-- The space counts as a whole where there are few chains. -/
theorem spaces_take_fromSpace (few : (fromSpace chains).length ≤ n) :
    spaces ((fromSpace chains).take n) = spaces chains := by
  rw [List.take_of_length_le few, spaces_fromSpace]

theorem length_fromSpace_le (chains : List EvbufferChain) :
    (fromSpace chains).length ≤ chains.length := by
  cases chains with
  | nil => exact le_rfl
  | cons chain chains =>
    rw [fromSpace]
    split <;> simp

theorem fromSpace_concat (chain tmp : EvbufferChain) (behind : List EvbufferChain) :
    (fromSpace (chain :: (behind ++ [tmp]))).length = (fromSpace (chain :: behind)).length + 1 := by
  simp only [fromSpace]
  split <;> simp

/-- With the empty chains replaced. -/
theorem replaceEmpty_ok (valid : buf.Valid) (chains : buf.chains = front ++ chain :: behind)
    (pointer : buf.lastWithDatap = front.length) (first : chain.off = 0 → front = [])
    (rest : AllEmpty behind) (less : chain.spaceLen < datlen) (malloc : Malloc) (two : 2 ≤ n) :
    ∃ r buf', buf.replaceEmpty malloc datlen = .ok (r, buf') ∧ Holds buf buf' buf.content ∧
      (r = 0 ∧ buf'.Ready datlen n ∨ r = -1 ∧ ∃ size, evbufferChainNew malloc size = none) := by
  have nothing : bytesOf behind = [] := bytesOf_eq_nil_iff.mpr rest
  have same : buf.content = buf.content ++ [] := (List.append_nil _).symm
  have tail : buf.chains.drop buf.lastWithDatap = chain :: behind := by
    rw [chains, pointer, List.drop_left]
  have front_eq : buf.chains.take buf.lastWithDatap = front := by
    rw [chains, pointer, List.take_left]
  rw [replaceEmpty, tail]
  simp only [front_eq]
  split
  · rename_i empty
    have only := first empty
    subst only
    have none : buf.content = [] := by
      rw [content, chains, List.nil_append, bytesOf_cons, nothing,
        EvbufferChain.data_eq_nil_iff.mpr empty, List.append_nil]
    have zero : ¬ (buf.lastWithDatap ≠ 0 ∨ ¬ AllEmpty behind) := by
      simp only [pointer, List.length_nil, ne_eq, not_true_eq_false, rest, or_self,
        not_false_eq_true]
    rw [if_neg zero]
    cases made : evbufferChainNew malloc datlen with
    | none =>
      refine ⟨-1, _, rfl, ?_, .inr ⟨rfl, _, made⟩⟩
      rw [none]
      exact holds_zeroChain buf
    | some tmp =>
      obtain ⟨empty', space⟩ := evbufferChainNew_some made
      have nil : AllEmpty [] := by simp [AllEmpty]
      refine ⟨0, _, rfl, ?_, .inl ⟨rfl, [], tmp, [], rfl, rfl, fun _ => rfl, nil, ?_⟩⟩
      · rw [same]
        refine valid.holds_linked [] rfl rfl (fun _ => rfl) nil ?_ rfl rfl rfl
        simp [none, EvbufferChain.data_eq_nil_iff.mpr empty']
      · have few := length_fromSpace_le [tmp]
        rw [List.length_singleton] at few
        rw [spaces_take_fromSpace (by omega), spaces_cons]
        omega
  · rename_i some
    have kept : ¬ (¬ AllEmpty behind ∨ datlen < chain.spaceLen) := by
      simp only [rest, not_true_eq_false, false_or]
      omega
    rw [if_neg kept]
    have nil : AllEmpty [] := by simp [AllEmpty]
    cases made : evbufferChainNew malloc (datlen - chain.spaceLen) with
    | none =>
      refine ⟨-1, _, rfl, ?_, .inr ⟨rfl, _, made⟩⟩
      rw [same]
      refine valid.holds_linked _ rfl pointer first nil ?_ rfl rfl rfl
      simp [content, chains, nothing]
    | some tmp =>
      obtain ⟨empty', space⟩ := evbufferChainNew_some made
      have last : AllEmpty [tmp] := by simp [AllEmpty, empty']
      have split : front ++ [chain] ++ [tmp] = front ++ chain :: [tmp] := by simp
      refine ⟨0, _, rfl, ?_, .inl ⟨rfl, front, chain, [tmp], split, pointer, first, last, ?_⟩⟩
      · rw [same]
        refine valid.holds_linked front split pointer first last ?_ rfl rfl rfl
        simp [content, chains, nothing, EvbufferChain.data_eq_nil_iff.mpr empty']
      · have few := length_fromSpace_le [chain, tmp]
        rw [List.length_cons, List.length_singleton] at few
        rw [spaces_take_fromSpace (by omega), spaces_cons, spaces_cons]
        omega

/-- `_evbuffer_expand_fast` makes room for all of the bytes, or an allocation failed; the bytes in
the buffer stay. -/
theorem expandFast_ok (valid : buf.Valid) (malloc : Malloc) (datlen : ℕ) (two : 2 ≤ n) :
    ∃ r buf', buf.expandFast malloc datlen n = .ok (r, buf') ∧ Holds buf buf' buf.content ∧
      (r = 0 ∧ buf'.Ready datlen n ∨ r = -1 ∧ ∃ size, evbufferChainNew malloc size = none) := by
  have same : buf.content = buf.content ++ [] := (List.append_nil _).symm
  have nil : AllEmpty [] := by simp [AllEmpty]
  obtain ⟨chains, lwd, totalLen, freezeStart, freezeEnd⟩ := buf
  have shape := valid.shape
  simp only at shape
  rw [expandFast, if_neg (by omega)]
  cases shape with
  | none =>
    simp only [if_true]
    cases made : evbufferChainNew malloc datlen with
    | none => exact ⟨-1, _, rfl, valid.holds, .inr ⟨rfl, _, made⟩⟩
    | some tmp =>
      obtain ⟨empty, space⟩ := evbufferChainNew_some made
      have inserted := chainInsert_nil ⟨[], 0, totalLen, freezeStart, freezeEnd⟩ tmp rfl rfl
      simp only [inserted]
      refine ⟨0, _, rfl, ?_, .inl ⟨rfl, [], tmp, [], rfl, rfl, fun _ => rfl, nil, ?_⟩⟩
      · rw [same]
        refine valid.holds_linked [] rfl rfl (fun _ => rfl) nil ?_ ?_ rfl rfl
        · simp [content, EvbufferChain.data_eq_nil_iff.mpr empty]
        · change totalLen + tmp.off = _
          simp [empty]
      · have few := length_fromSpace_le [tmp]
        rw [List.length_singleton] at few
        rw [spaces_take_fromSpace (by omega), spaces_cons]
        omega
  | @linked front behind chain first rest =>
    obtain ⟨room, chain', behind', run, rest', data, off, found⟩ :=
      expandLoop_ok datlen chain rest two
    have first' : chain'.off = 0 → front = [] := fun empty => first (by omega)
    have bytes : bytesOf (front ++ chain' :: behind') = bytesOf (front ++ chain :: behind) := by
      simp [data, bytesOf_eq_nil_iff.mpr rest, bytesOf_eq_nil_iff.mpr rest']
    have moved : Holds ⟨front ++ chain :: behind, front.length, totalLen, freezeStart, freezeEnd⟩
        ⟨front ++ chain' :: behind', front.length, totalLen, freezeStart, freezeEnd⟩
        (bytesOf (front ++ chain :: behind) ++ []) := by
      refine valid.holds_linked front rfl rfl first' rest' ?_ rfl rfl rfl
      rw [bytes, List.append_nil]
      rfl
    rw [List.append_nil] at moved
    simp only [List.append_eq_nil_iff, List.cons_ne_nil, and_false, if_false, List.drop_left,
      List.take_left, run, bind, Except.bind]
    cases room with
    | enough =>
      exact ⟨0, _, rfl, moved, .inl ⟨rfl, front, chain', behind', rfl, rfl, first', rest', found⟩⟩
    | ranOff all =>
      obtain ⟨sum, few⟩ := found
      cases made : evbufferChainNew malloc (datlen - all) with
      | none =>
        simp only [made]
        exact ⟨-1, _, rfl, moved, .inr ⟨rfl, _, made⟩⟩
      | some tmp =>
        obtain ⟨empty, space⟩ := evbufferChainNew_some made
        have more : AllEmpty (behind' ++ [tmp]) := by
          simp only [AllEmpty, List.forall_mem_append, List.forall_mem_singleton]
          exact ⟨rest', empty⟩
        have split : front ++ chain' :: behind' ++ [tmp] =
            front ++ chain' :: (behind' ++ [tmp]) := by simp
        simp only [made]
        refine ⟨0, _, rfl, ?_, .inl ⟨rfl, front, chain', _, split, rfl, first', more, ?_⟩⟩
        · rw [same]
          refine valid.holds_linked front split rfl first' more ?_ rfl rfl rfl
          rw [← split, bytesOf_append, bytes, List.append_nil, bytesOf_cons,
            EvbufferChain.data_eq_nil_iff.mpr empty]
          simp [content]
        · have count := fromSpace_concat chain' tmp behind'
          rw [spaces_take_fromSpace (by omega), spaces_cons, spaces_append, spaces_cons]
          rw [spaces_cons] at sum
          omega
    | usedUp =>
      obtain ⟨r, buf', run', holds, outcome⟩ := replaceEmpty_ok (n := n) moved.valid rfl rfl first'
        rest' found malloc two
      refine ⟨r, buf', run', moved.trans ?_, outcome⟩
      have kept := holds
      rwa [moved.content] at kept

/-! ## The pieces -/

/-- Pieces of these lengths lie in the space of these chains, one each, and all but the last are the
whole space. -/
inductive Offered : List ℕ → List EvbufferChain → Prop where
  | nil {chains : List EvbufferChain} : Offered [] chains
  | last {len : ℕ} {chain : EvbufferChain} {chains : List EvbufferChain}
      (le : len ≤ chain.spaceLen) : Offered [len] (chain :: chains)
  | whole {lens : List ℕ} {chain : EvbufferChain} {chains : List EvbufferChain}
      (rest : Offered lens chains) : Offered (chain.spaceLen :: lens) (chain :: chains)

theorem setupLoop_done {howmuch soFar : ℕ} {exact : Bool} (i : ℕ) (chains : List EvbufferChain)
    (done : howmuch ≤ soFar) : setupLoop howmuch exact i soFar chains = .ok [] := by
  cases i with
  | zero => rfl
  | succ i =>
    cases chains <;> rw [setupLoop, if_neg (by omega)] <;> rfl

/-- The pieces come to exactly the bytes asked for. -/
theorem setupLoop_ok {howmuch soFar i : ℕ} (room : howmuch ≤ soFar + spaces (chains.take i))
    (le : soFar ≤ howmuch) :
    ∃ vecs, setupLoop howmuch true i soFar chains = .ok vecs ∧ Offered vecs chains ∧
      soFar + vecs.sum = howmuch := by
  induction i generalizing soFar chains with
  | zero =>
    rw [List.take_zero, spaces_nil] at room
    exact ⟨[], rfl, .nil, by rw [List.sum_nil]; omega⟩
  | succ i ih =>
    by_cases done : howmuch ≤ soFar
    · exact ⟨[], setupLoop_done _ _ done, .nil, by rw [List.sum_nil]; omega⟩
    cases chains with
    | nil =>
      rw [List.take_nil, spaces_nil] at room
      omega
    | cons chain chains =>
      rw [setupLoop, if_pos (by omega)]
      simp only [and_true]
      by_cases cut : chain.spaceLen > howmuch - soFar
      · refine ⟨[howmuch - soFar], ?_, .last cut.le, by rw [List.sum_singleton]; omega⟩
        rw [if_pos cut, setupLoop_done _ _ (by omega)]
        rfl
      · rw [List.take_succ_cons, spaces_cons] at room
        obtain ⟨vecs, run, offered, sum⟩ :=
          ih (show howmuch ≤ soFar + chain.spaceLen + spaces (chains.take i) by omega) (by omega)
        refine ⟨chain.spaceLen :: vecs, ?_, .whole offered, by rw [List.sum_cons]; omega⟩
        rw [if_neg cut, run]
        rfl

/-- The chains in front of the first piece, and those from it on. -/
theorem readSetupVecs_ok (ready : buf.Ready datlen n) :
    ∃ vecs front chains, buf.readSetupVecs datlen n true = .ok (vecs, front.length) ∧
      buf.chains = front ++ chains ∧ vecs.sum = datlen ∧ Offered vecs chains ∧
      (datlen ≠ 0 → ∃ chain behind, chains = chain :: behind ∧ AllEmpty behind) := by
  obtain ⟨front, chain, behind, split, pointer, first, rest, room⟩ := ready
  have at_pointer : buf.chains[buf.lastWithDatap]? = some chain := by
    rw [split, pointer, List.getElem?_append_right le_rfl, Nat.sub_self, List.getElem?_cons_zero]
  rw [← Nat.zero_add (spaces _)] at room
  obtain ⟨vecs, run, offered, sum⟩ := setupLoop_ok room (Nat.zero_le _)
  rw [Nat.zero_add] at sum room
  simp only [readSetupVecs, at_pointer]
  by_cases full : chain.spaceLen = 0
  · have tail : fromSpace (chain :: behind) = behind := by rw [fromSpace, if_pos full]
    rw [tail] at run offered room
    have from_next : buf.chains.drop (buf.lastWithDatap + 1) = behind := by
      rw [split, pointer, ← List.drop_drop, List.drop_left, List.drop_one, List.tail_cons]
    refine ⟨vecs, front ++ [chain], behind, ?_, by simp [split], sum, offered, fun some => ?_⟩
    · rw [if_pos full, from_next, run, List.length_append, ← pointer]
      rfl
    · cases behind with
      | nil =>
        rw [List.take_nil, spaces_nil] at room
        omega
      | cons next behind => exact ⟨next, behind, rfl, (List.forall_mem_cons.mp rest).2⟩
  · have tail : fromSpace (chain :: behind) = chain :: behind := by rw [fromSpace, if_neg full]
    rw [tail] at run offered
    have from_here : buf.chains.drop buf.lastWithDatap = chain :: behind := by
      rw [split, pointer, List.drop_left]
    refine ⟨vecs, front, chain :: behind, ?_, split, sum, offered, fun _ => ⟨_, _, rfl, rest⟩⟩
    rw [if_neg full, from_here, run, ← pointer]
    rfl

/-- Pieces that get nothing. -/
theorem scatter_nil {lens : List ℕ} (offered : Offered lens chains) :
    scatter lens chains [] = .ok chains := by
  induction offered with
  | nil => rfl
  | @last len chain chains le =>
    rw [scatter, List.take_nil, List.drop_nil, chain.memcpy_nil]
    rfl
  | @whole lens chain chains rest ih =>
    rw [scatter, List.take_nil, List.drop_nil, chain.memcpy_nil, ih]
    rfl

/-- The bytes come to lie behind those of the first chain, and `last_with_datap` at the last chain
that got some. -/
theorem fill_pieces {lens : List ℕ} {bytes : Bytes} (lwd chainp : ℕ)
    (offered : Offered lens (chain :: behind)) (rest : AllEmpty behind) (some : bytes ≠ [])
    (le : bytes.length ≤ lens.sum) :
    ∃ chains front last behind', scatter lens (chain :: behind) bytes = .ok chains ∧
      commitLoop lens.length bytes.length chainp chains lwd =
        .ok (front ++ last :: behind', chainp + front.length) ∧
      last.off ≠ 0 ∧ AllEmpty behind' ∧ bytesOf front ++ last.data = chain.data ++ bytes := by
  have pos : 0 < bytes.length := List.length_pos_iff.mpr some
  induction lens generalizing chain behind bytes chainp with
  | nil =>
    rw [List.sum_nil] at le
    omega
  | cons len lens ih =>
    obtain ⟨others, bounds⟩ : Offered lens behind ∧
        (lens = [] ∧ len ≤ chain.spaceLen ∨ len = chain.spaceLen) := by
      cases offered with
      | last le => exact ⟨.nil, .inl ⟨rfl, le⟩⟩
      | whole rest => exact ⟨rest, .inr rfl⟩
    rw [List.sum_cons] at le
    have space_le : chain.spaceLen ≤ evbufferChainMax := by
      have := chain.small
      simp only [EvbufferChain.spaceLen, EvbufferChain.bufferLen]
      omega
    have limit : (if chain.spaceLen > evbufferChainMax then evbufferChainMax
        else chain.spaceLen) = chain.spaceLen := if_neg (by omega)
    by_cases fits : bytes.length ≤ chain.spaceLen
    · -- the rest of the bytes goes into this chain
      have within : bytes.length ≤ len := by
        rcases bounds with ⟨rfl, -⟩ | rfl
        · simpa using le
        · exact fits
      obtain ⟨chain₁, chain₂, copied, space, extended, data, off⟩ := chain.fill_ok fits
      refine ⟨chain₁ :: behind, [], chain₂, behind, ?_, ?_, by omega, rest, data⟩
      · rw [scatter, List.take_of_length_le within, copied, List.drop_eq_nil_of_le within]
        simp only [bind, Except.bind, scatter_nil others]
        rfl
      · simp only [List.length_cons, commitLoop, space, limit]
        rw [if_neg (by omega), extended]
        rfl
    · have len_eq : len = chain.spaceLen := by
        rcases bounds with ⟨rfl, small⟩ | eq
        · rw [List.sum_nil] at le
          omega
        · exact eq
      subst len_eq
      have front_length : (bytes.take chain.spaceLen).length = chain.spaceLen := by
        rw [List.length_take]
        omega
      have back_length : (bytes.drop chain.spaceLen).length = bytes.length - chain.spaceLen :=
        List.length_drop
      have back_some : bytes.drop chain.spaceLen ≠ [] := by
        rw [← List.length_pos_iff]
        omega
      obtain ⟨chain₁, chain₂, copied, space, extended, data, off⟩ := chain.fill_ok front_length.le
      rw [front_length] at extended
      cases behind with
      | nil =>
        cases others
        rw [List.sum_nil] at le
        omega
      | cons next behind =>
        obtain ⟨empty, rest⟩ := List.forall_mem_cons.mp rest
        obtain ⟨chains, front, last, behind', filled, committed, nonzero, rest', bytes_eq⟩ :=
          ih (chainp + 1) others rest back_some (by omega) (by omega)
        rw [EvbufferChain.data_eq_nil_iff.mpr empty, List.nil_append] at bytes_eq
        refine ⟨chain₁ :: chains, chain₂ :: front, last, behind', ?_, ?_, nonzero, rest', ?_⟩
        · rw [scatter, copied]
          simp only [bind, Except.bind, filled]
          rfl
        · simp only [List.length_cons, commitLoop, space, limit]
          rw [if_pos (by omega), extended, ← back_length]
          simp only [bind, Except.bind, committed]
          simp [pure, Except.pure, Nat.add_assoc, Nat.add_comm 1]
        · rw [bytesOf_cons, List.append_assoc, bytes_eq, data, List.append_assoc,
            List.take_append_drop]

/-- What is read is offered as much room as is asked for, and comes behind what is there. -/
theorem read_ok (valid : buf.Valid) (thawed : buf.freezeEnd = false) (malloc : Malloc)
    (readable howmuch : ℤ) (readv : Readv) :
    ∃ n bytes buf', buf.read malloc readable howmuch readv = .ok (n, bytes, buf') ∧
      Holds buf buf' (buf.content ++ bytes) ∧
      ((∃ vecs, vecs.sum = (Request.Evbuffer.readSize readable howmuch).toNat ∧
          readv.got vecs = some bytes ∧ n = bytes.length) ∨
        n = -1 ∧ bytes = [] ∧
          ((∃ size, evbufferChainNew malloc size = none) ∨ ∃ vecs, readv.got vecs = none)) := by
  generalize asked : (Request.Evbuffer.readSize readable howmuch).toNat = size
  obtain ⟨r, buf₁, expanded, kept, ⟨rfl, ready⟩ | ⟨rfl, refused⟩⟩ :=
    expandFast_ok valid malloc size (show 2 ≤ numReadIovec by decide)
  · have still : Holds buf buf₁ (buf.content ++ []) := by rwa [List.append_nil]
    obtain ⟨vecs, front, chains, setup, split, sum, offered, linked⟩ := readSetupVecs_ok ready
    rw [read, thawed, if_neg Bool.false_ne_true]
    simp only [asked, expanded, bind, Except.bind, setup]
    rw [if_neg (by decide)]
    cases got : readv.got vecs with
    | none => exact ⟨-1, [], buf₁, rfl, still, .inr ⟨rfl, rfl, .inr ⟨vecs, got⟩⟩⟩
    | some bytes =>
      by_cases none : bytes = []
      · subst none
        exact ⟨0, [], buf₁, rfl, still, .inl ⟨vecs, sum, got, rfl⟩⟩
      · have le := readv.bounded _ _ got
        have pos : 0 < bytes.length := List.length_pos_iff.mpr none
        obtain ⟨chain, behind, rfl, rest⟩ := linked (by omega)
        obtain ⟨chains₁, front₁, last, behind₁, filled, committed, nonzero, rest₁, bytes_eq⟩ :=
          fill_pieces buf₁.lastWithDatap front.length offered rest none le
        have tail : buf₁.chains.drop front.length = chain :: behind := by
          rw [split, List.drop_left]
        have head : buf₁.chains.take front.length = front := by rw [split, List.take_left]
        have before : buf₁.content = bytesOf front ++ chain.data := by
          simp [content, split, bytesOf_eq_nil_iff.mpr rest]
        simp only [tail, head, filled, committed]
        cases bytes with
        | nil => exact (none rfl).elim
        | cons byte bytes =>
          refine ⟨_, _, _, rfl, ?_, .inl ⟨vecs, sum, got, rfl⟩⟩
          rw [← kept.content]
          apply kept.trans
          refine kept.valid.holds_linked (front ++ front₁) (List.append_assoc _ _ _).symm
            (List.length_append).symm (fun empty => (nonzero empty).elim) rest₁ ?_ rfl rfl rfl
          rw [before, List.append_assoc, List.append_assoc, ← bytes_eq]
          simp [bytesOf_eq_nil_iff.mpr rest₁]
  · refine ⟨-1, [], buf₁, ?_, by rwa [List.append_nil], .inr ⟨rfl, rfl, .inl refused⟩⟩
    rw [read, thawed, if_neg Bool.false_ne_true]
    simp only [asked, expanded]
    rfl

end Evbuffer

end JiaTuanServer.Libevent

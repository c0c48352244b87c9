import JiaTuanServer.Json.Reader

/-!
# The values that the parser makes

A `std::map` keeps its entries in the order of their keys, `setMember` included. So the values that
`parse` makes are of a special form, `Value.IsRead`: the keys of every object ascend, no string has
a zero byte, and the numbers are those that `decodeNumber` can form.
-/

namespace JiaTuanServer.Request.Value

/-- The keys of the entries ascend. -/
def Ascending (members : List (Bytes × Value)) : Prop :=
  (members.map Prod.fst).Pairwise (· < ·)

section IsRead

variable (scan : Bytes → Option UInt64)

mutual

def IsRead : Value → Prop
  | null | bool _ => True
  | int value => -2147483639 ≤ value ∧ value ≤ 2147483647
  | uint value => 2147483647 < value ∧ value ≤ 4294967289
  | real bits => ∃ t, scan t = some bits
  | string value => 0 ∉ value
  | array values => AllRead values
  | object members => Ascending members ∧ MembersRead members

def AllRead : List Value → Prop
  | [] => True
  | v :: rest => IsRead v ∧ AllRead rest

def MembersRead : List (Bytes × Value) → Prop
  | [] => True
  | (name, v) :: rest => 0 ∉ name ∧ IsRead v ∧ MembersRead rest

end

end IsRead

variable {scan : Bytes → Option UInt64} {key other : Bytes} {members : List (Bytes × Value)}
  {v : Value}

theorem allRead_iff {values : List Value} : AllRead scan values ↔ ∀ v ∈ values, IsRead scan v := by
  induction values with
  | nil => simp [AllRead]
  | cons v rest ih => simp [AllRead, ih]

theorem membersRead_iff :
    MembersRead scan members ↔ ∀ m ∈ members, 0 ∉ m.1 ∧ IsRead scan m.2 := by
  induction members with
  | nil => simp [MembersRead]
  | cons m rest ih => simp [MembersRead, ih, and_assoc]

/-! ## Inserting -/

theorem Ascending.insertNull (ascending : Ascending members) (missing : Missing key members) :
    Ascending (insertNull key members) := by
  have above := missing.above
  have below : ∀ m ∈ members.takeWhile (fun m => m.1 < key), m.1 < key := fun m mem => by
    simpa using List.mem_takeWhile_imp mem
  rw [Ascending, ← List.takeWhile_append_dropWhile (p := fun m => decide (m.1 < key))
    (l := members), List.map_append, List.pairwise_append] at ascending
  obtain ⟨front, behind, across⟩ := ascending
  rw [Ascending, Value.insertNull, List.map_append, List.map_cons, List.pairwise_append,
    List.pairwise_cons]
  have greater : ∀ k ∈ (members.dropWhile fun m => m.1 < key).map Prod.fst, key < k := by
    cases after : members.dropWhile fun m => m.1 < key with
    | nil => simp
    | cons head rest =>
      rw [after] at above behind
      have first : key < head.1 := above head rfl
      rw [List.map_cons, List.pairwise_cons] at behind
      intro k mem
      rcases List.mem_cons.mp mem with rfl | mem
      · exact first
      · exact List.lt_trans first (behind.1 k mem)
  refine ⟨front, ⟨greater, behind⟩, fun k mem k' mem' => ?_⟩
  obtain ⟨m, inFront, rfl⟩ := List.mem_map.mp mem
  rcases List.mem_cons.mp mem' with rfl | mem'
  · exact below m inFront
  · exact across _ mem k' mem'

theorem Ascending.resolveMember (ascending : Ascending members) :
    Ascending (resolveMember key members).2 := by
  obtain ⟨m, -, -, eq⟩ | ⟨missing, eq⟩ := resolveMember_cases key members
  · rwa [eq]
  · rw [eq]
    exact ascending.insertNull missing

end JiaTuanServer.Request.Value

namespace JiaTuanServer.Json

open Request Value

variable {scan : Bytes → Option UInt64} {name : Bytes} {members : List (Bytes × Value)} {v : Value}

theorem ascending_setMember (ascending : Ascending members) :
    Ascending (setMember name v members) := by
  have keys : (setMember name v members).map Prod.fst =
      (resolveMember (cString name) members).2.map Prod.fst := by
    rw [setMember, List.map_map]
    refine List.map_congr_left fun m _ => ?_
    by_cases same : m.1 = cString name
    · simp [same]
    · simp [same]
  rw [Ascending, keys]
  exact ascending.resolveMember

/-- Every entry is the new one or an old one. -/
theorem mem_setMember {m : Bytes × Value} (mem : m ∈ setMember name v members) :
    m = (cString name, v) ∨ m ∈ members := by
  obtain ⟨m', inMap, rfl⟩ := List.mem_map.mp mem
  by_cases same : m'.1 = cString name
  · exact .inl (if_pos same)
  · rw [if_neg same]
    refine .inr ?_
    obtain ⟨m, -, -, eq⟩ | ⟨missing, eq⟩ := resolveMember_cases (cString name) members
    · rwa [eq] at inMap
    · rw [eq, insertNull, List.mem_append, List.mem_cons] at inMap
      rcases inMap with front | rfl | behind
      · exact (List.takeWhile_prefix _).subset front
      · exact absurd rfl same
      · exact (List.dropWhile_suffix _).subset behind

theorem zero_notMem_cString (s : Bytes) : 0 ∉ cString s := fun mem => by
  simpa using List.mem_takeWhile_imp mem

theorem isRead_setMember (name : Bytes) (read : IsRead scan (.object members))
    (value : IsRead scan v) :
    IsRead scan (.object (setMember name v members)) := by
  rw [IsRead, membersRead_iff] at read ⊢
  refine ⟨ascending_setMember read.1, fun m mem => ?_⟩
  rcases mem_setMember mem with rfl | mem
  · exact ⟨zero_notMem_cString name, value⟩
  · exact read.2 m mem

end JiaTuanServer.Json

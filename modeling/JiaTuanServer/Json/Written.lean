import JiaTuanServer.Json.Complete

/-!
# What the writer writes

`FastWriter` writes texts of the grammar, and these read back as the value written, if it is of the
form that the parser makes: otherwise some number, string or order of members is lost on the way.
-/

namespace JiaTuanServer.Json

open Request JsonText

/-! ## Numbers -/

/-- The decimal digits of a number. -/
def decimals (n : ℕ) : List (Fin 10) := (Nat.toDigits 10 n).map fun c => Fin.ofNat 10 (c.toNat - 48)

/-- The number with the digits of an integer. -/
def integerNumber (i : ℤ) : Number where
  negative := i < 0
  whole := decimals i.natAbs
  fraction := []
  exponent := none
  whole_ne_nil := by simp [decimals, Nat.toDigits_ne_nil]

theorem digit_decimal {c : Char} (decimal : c.isDigit) :
    digit (Fin.ofNat 10 (c.toNat - 48)) = UInt8.ofNat c.toNat ∧
      (Fin.ofNat 10 (c.toNat - 48)).val = c.toNat - '0'.toNat := by
  have range : 48 ≤ c.toNat ∧ c.toNat ≤ 57 := by
    simp only [Char.isDigit, Bool.and_eq_true, decide_eq_true_eq, ge_iff_le,
      UInt32.le_iff_toNat_le] at decimal
    exact decimal
  have small : (Fin.ofNat 10 (c.toNat - 48)).val = c.toNat - 48 :=
    Nat.mod_eq_of_lt (by omega)
  refine ⟨?_, small⟩
  rw [digit, small]
  congr 1
  omega

theorem map_digit_decimals (n : ℕ) : (decimals n).map digit = Value.uintToString n := by
  rw [decimals, Value.uintToString, List.map_map]
  refine List.map_congr_left fun c mem => ?_
  exact (digit_decimal (Nat.isDigit_of_mem_toDigits (by decide) (by decide) mem)).1

theorem valueFrom_decimals (n : ℕ) : Number.valueFrom 0 (decimals n) = n := by
  have digits : ∀ c ∈ Nat.toDigits 10 n, c.isDigit := fun c mem =>
    Nat.isDigit_of_mem_toDigits (by decide) (by decide) mem
  have folds (cs : List Char) (decimal : ∀ c ∈ cs, c.isDigit) (value : ℕ) :
      Number.valueFrom value (cs.map fun c => Fin.ofNat 10 (c.toNat - 48)) =
        Nat.ofDigitChars 10 cs value := by
    induction cs generalizing value with
    | nil => rfl
    | cons c cs ih =>
      rw [Nat.ofDigitChars_cons, ← (digit_decimal (decimal c List.mem_cons_self)).2, Nat.mul_comm,
        ← ih fun d mem => decimal d (List.mem_cons_of_mem c mem)]
      rfl
  rw [decimals, folds _ digits, Nat.ofDigitChars_ten_toDigits]

theorem integerNumber_text (i : ℤ) : (integerNumber i).text = Value.intToString i := by
  unfold Number.text Number.sign Number.tail integerNumber Value.intToString
  simp only [map_digit_decimals]
  by_cases negative : i < 0
  · simp [negative]
    rfl
  · simp [negative]

theorem toInt_integerNumber (i : ℤ) : toInt (integerNumber i) = i := by
  unfold toInt Number.magnitude integerNumber
  simp only [valueFrom_decimals]
  by_cases negative : i < 0
  · simp only [negative, decide_true, if_true]
    omega
  · simp only [negative, decide_false, Bool.false_eq_true, if_false]
    omega

/-! ## Strings -/

theorem hexDigit_escape {d : UInt8} (small : d.toNat < 16) :
    HexDigit d.toNat (Value.escape.hexDigit d) := by
  unfold Value.escape.hexDigit
  split
  · rename_i decimal
    have below : d.toNat < 10 := UInt8.lt_iff_toNat_lt.mp decimal
    have eq : 0x30 + d = UInt8.ofNat (48 + d.toNat) := by
      apply UInt8.toNat_inj.mp
      simp
    rw [eq]
    exact .decimal below
  · rename_i decimal
    have above : 10 ≤ d.toNat := Nat.le_of_not_lt fun lt => decimal (UInt8.lt_iff_toNat_lt.mpr lt)
    obtain ⟨v, eq⟩ := Nat.exists_eq_add_of_le above
    have digit : 0x37 + d = UInt8.ofNat (65 + v) := by
      apply UInt8.toNat_inj.mp
      simp [eq]
      omega
    rw [digit, eq]
    exact .upper (by omega)

/-- A control character is written with its code. -/
theorem spells_control {c : UInt8} (control : c ≤ 0x1F) :
    Spells [c] (text "\\u00" ++
      [Value.escape.hexDigit (c / 16), Value.escape.hexDigit (c % 16)]) := by
  have small : c.toNat ≤ 31 := UInt8.le_iff_toNat_le.mp control
  obtain ⟨char, valid⟩ : ∃ char : Char, char.toNat = c.toNat := by
    have same : c.toUInt32.toNat = c.toNat := UInt8.toNat_toUInt32 c
    exact ⟨⟨c.toUInt32, .inl (by omega)⟩, same⟩
  have encoded : String.utf8EncodeChar char = [c] := by
    rw [← codePointToUTF8_eq, valid, codePointToUTF8, if_pos (by omega), UInt8.ofNat_toNat]
  have high : (c / 16).toNat = c.toNat / 16 := by simp
  have low : (c % 16).toNat = c.toNat % 16 := by simp
  have unit : CodeUnit char.toNat (0x5C :: 0x75 ::
      [0x30, 0x30, Value.escape.hexDigit (c / 16), Value.escape.hexDigit (c % 16)]) := by
    refine ⟨_, rfl, ?_, rfl⟩
    have first := hexDigit_escape (d := c / 16) (by rw [high]; omega)
    have second := hexDigit_escape (d := c % 16) (by rw [low]; omega)
    have value : (((0 * 16 + 0) * 16 + 0) * 16 + (c / 16).toNat) * 16 + (c % 16).toNat =
        char.toNat := by
      rw [valid, high, low]
      omega
    rw [← value]
    exact .cons (.decimal (by decide))
      (.cons (.decimal (by decide)) (.cons first (.cons second .nil)))
  have spelled := Spells.unicode unit
  rwa [encoded] at spelled

/-- Every byte is written in a way that stands for it; a zero byte would stand as it is. -/
theorem spells_escape {c : UInt8} (nonzero : c ≠ 0) : Spells [c] (Value.escape c) := by
  unfold Value.escape
  split
  · subst c
    exact .escape (by decide)
  split
  · subst c
    exact .escape (by decide)
  split
  · subst c
    exact .escape (by decide)
  split
  · subst c
    exact .escape (by decide)
  split
  · subst c
    exact .escape (by decide)
  split
  · subst c
    exact .escape (by decide)
  split
  · subst c
    exact .escape (by decide)
  split
  · rename_i control
    simp only [Value.isControlCharacter, Bool.and_eq_true, decide_eq_true_eq] at control
    exact spells_control control.2
  · rename_i quote backslash _ _ _ _ _ noControl
    refine .byte (UInt8.le_iff_toNat_le.mpr ?_) quote backslash
    simp only [Value.isControlCharacter, Bool.and_eq_true, decide_eq_true_eq, not_and,
      UInt8.lt_iff_toNat_lt, UInt8.le_iff_toNat_le] at noControl
    have pos : 0 < c.toNat := Nat.pos_of_ne_zero fun zero => nonzero (UInt8.toNat_inj.mp zero)
    have above := noControl pos
    change 32 ≤ c.toNat
    change ¬ c.toNat ≤ 31 at above
    omega

theorem body_escape {s : Bytes} (nonzero : 0 ∉ s) : Body s (s.flatMap Value.escape) := by
  induction s with
  | nil => exact .nil
  | cons c s ih =>
    rw [List.mem_cons, not_or] at nonzero
    exact .cons (spells_escape (Ne.symm nonzero.1)) (ih nonzero.2)

theorem quoted_written {s : Bytes} (nonzero : 0 ∉ s) :
    Quoted s (Value.valueToQuotedString s) := by
  rw [Value.valueToQuotedString_eq]
  exact .intro (body_escape nonzero)

/-! ## Trees -/

/-- The values that hold no `double`. -/
inductive NoReal : Value → Prop where
  | null : NoReal .null
  | int (i : ℤ) : NoReal (.int i)
  | uint (n : ℕ) : NoReal (.uint n)
  | string (s : Bytes) : NoReal (.string s)
  | bool (b : Bool) : NoReal (.bool b)
  | array {values : List Value} : (∀ v ∈ values, NoReal v) → NoReal (.array values)
  | object {members : List (Bytes × Value)} : (∀ m ∈ members, NoReal m.2) → NoReal (.object members)

mutual

/-- The tree of a value without reals. -/
def treeOf : Value → Tree
  | .null => .null
  | .int i => .number (integerNumber i)
  | .uint n => .number (integerNumber n)
  | .real _ => .null
  | .string s => .string s
  | .bool b => .bool b
  | .array values => .array (elementTrees values)
  | .object members => .object (memberTrees members)

def elementTrees : List Value → List Tree
  | [] => []
  | v :: vs => treeOf v :: elementTrees vs

def memberTrees : List (Bytes × Value) → List (Bytes × Tree)
  | [] => []
  | (name, v) :: ms => (name, treeOf v) :: memberTrees ms

end

variable {scan : Bytes → Option UInt64} {doubleToString : UInt64 → Bytes}

/-! ## The texts -/

theorem separated_cons (a b : Bytes) (rest : List Bytes) :
    Value.separated (a :: b :: rest) = a ++ 0x2C :: Value.separated (b :: rest) := rfl

theorem separated_singleton (a : Bytes) : Value.separated [a] = a := by simp [Value.separated]

theorem derives_array {values : List Value}
    (each : ∀ v ∈ values, Derives (.value (treeOf v)) (v.writeValue doubleToString)) :
    Derives (.value (treeOf (.array values)))
      (Value.writeValue doubleToString (.array values)) := by
  have elements (v : Value) (vs : List Value)
      (each : ∀ v' ∈ v :: vs, Derives (.value (treeOf v')) (v'.writeValue doubleToString)) :
      Derives (.elements (elementTrees (v :: vs)))
        (Value.separated (Value.writeElements doubleToString (v :: vs))) := by
    induction vs generalizing v with
    | nil =>
      have last := Derives.lastElement .nil (each v List.mem_cons_self) .nil
      simpa [elementTrees, Value.writeElements, separated_singleton] using last
    | cons v' vs ih =>
      have rest := ih v' fun x mem => each x (List.mem_cons_of_mem v mem)
      have first := Derives.element .nil (each v List.mem_cons_self) .nil rest
      simpa [elementTrees, Value.writeElements, separated_cons] using first
  rw [treeOf, Value.writeValue]
  cases values with
  | nil => exact .emptyArray .nil
  | cons v vs => exact .array (elements v vs each)

theorem derives_object {members : List (Bytes × Value)}
    (names : ∀ m ∈ members, 0 ∉ m.1)
    (each : ∀ m ∈ members, Derives (.value (treeOf m.2)) (m.2.writeValue doubleToString)) :
    Derives (.value (treeOf (.object members)))
      (Value.writeValue doubleToString (.object members)) := by
  have all (name : Bytes) (v : Value) (ms : List (Bytes × Value))
      (names : ∀ m ∈ (name, v) :: ms, 0 ∉ m.1)
      (each : ∀ m ∈ (name, v) :: ms,
        Derives (.value (treeOf m.2)) (m.2.writeValue doubleToString)) :
      Derives (.members (memberTrees ((name, v) :: ms)))
        (Value.separated (Value.writeMembers doubleToString ((name, v) :: ms))) := by
    induction ms generalizing name v with
    | nil =>
      have last := Derives.lastMember .nil (quoted_written (names _ List.mem_cons_self)) .nil .nil
        (each _ List.mem_cons_self) .nil
      simpa [memberTrees, Value.writeMembers, separated_singleton, text] using last
    | cons m ms ih =>
      obtain ⟨name', v'⟩ := m
      have rest := ih name' v' (fun x mem => names x (List.mem_cons_of_mem _ mem))
        fun x mem => each x (List.mem_cons_of_mem _ mem)
      have first := Derives.member .nil (quoted_written (names _ List.mem_cons_self)) .nil .nil
        (each _ List.mem_cons_self) .nil rest
      simpa [memberTrees, Value.writeMembers, separated_cons, text] using first
  rw [treeOf, Value.writeValue]
  cases members with
  | nil => exact .emptyObject .nil
  | cons m ms =>
    obtain ⟨name, v⟩ := m
    exact .object (all name v ms names each)

theorem derives_written {v : Value} (noReal : NoReal v) (read : v.IsRead scan) :
    Derives (.value (treeOf v)) (v.writeValue doubleToString) := by
  induction noReal with
  | null => exact .null
  | int i =>
    rw [Value.writeValue, ← integerNumber_text]
    exact .number _
  | uint n =>
    have text := integerNumber_text n
    rw [Value.intToString, if_neg (by omega), Int.natAbs_natCast] at text
    rw [Value.writeValue, ← text]
    exact .number _
  | string s =>
    rw [Value.IsRead] at read
    rw [Value.writeValue, cString_eq_self read]
    exact .string (quoted_written read)
  | bool b =>
    cases b with
    | true => exact .true
    | false => exact .false
  | array _ ih =>
    rw [Value.IsRead, Value.allRead_iff] at read
    exact derives_array fun v mem => ih v mem (read v mem)
  | object _ ih =>
    rw [Value.IsRead, Value.membersRead_iff] at read
    exact derives_object (fun m mem => (read.2 m mem).1) fun m mem => ih m mem (read.2 m mem).2

/-! ## The values -/

/-- A member whose name is greater than all others goes behind them. -/
theorem setMember_behind {name : Bytes} {v : Value} {members : List (Bytes × Value)}
    (nonzero : 0 ∉ name) (greater : ∀ m ∈ members, m.1 < name) :
    setMember name v members = members ++ [(name, v)] := by
  have none : Value.lowerBound name members = none := by
    rw [Value.lowerBound, List.find?_eq_none]
    intro m mem
    simpa using greater m mem
  have inserted : (Value.resolveMember name members).2 = members ++ [(name, .null)] := by
    rw [Value.resolveMember, none]
    have front : ∀ m ∈ members, decide (m.1 < name) = true := fun m mem => by
      simpa using greater m mem
    rw [Value.insertNull, List.takeWhile_eq_self_iff.mpr front,
      List.dropWhile_eq_nil_iff.mpr front]
  have others : members.map (fun m => if m.1 = name then (name, v) else m) = members := by
    rw [← List.map_id members, List.map_map]
    refine List.map_congr_left fun m mem => if_neg ?_
    rintro rfl
    exact List.lt_irrefl _ (greater m mem)
  rw [setMember, cString_eq_self nonzero, inserted, List.map_append, others]
  simp

theorem membersOf_behind (before members : List (Bytes × Value))
    (ascending : Value.Ascending (before ++ members)) (names : ∀ m ∈ members, 0 ∉ m.1)
    (each : ∀ m ∈ members, valueOf scan (treeOf m.2) = some m.2) :
    membersOf scan before (memberTrees members) = some (before ++ members) := by
  induction members generalizing before with
  | nil => rw [List.append_nil]; rfl
  | cons m ms ih =>
    obtain ⟨name, v⟩ := m
    have valued := each _ List.mem_cons_self
    have greater : ∀ m ∈ before, m.1 < name := by
      intro m mem
      unfold Value.Ascending at ascending
      rw [List.map_append, List.pairwise_append] at ascending
      exact ascending.2.2 m.1 (List.mem_map_of_mem mem) name (by simp)
    rw [memberTrees, membersOf]
    simp only [Option.bind_eq_bind, valued, Option.bind_some]
    rw [setMember_behind (names _ List.mem_cons_self) greater]
    have rest := ih (before ++ [(name, v)]) (by simpa using ascending)
      (fun x mem => names x (List.mem_cons_of_mem _ mem))
      fun x mem => each x (List.mem_cons_of_mem _ mem)
    simpa using rest

theorem numberValue_integer {i : ℤ} {v : Value} (value : integerValue i = some v) :
    numberValue scan (integerNumber i) = some v := by
  have integer : (integerNumber i).IsInteger := ⟨rfl, rfl⟩
  rw [numberValue, if_pos integer, toInt_integerNumber, value]

theorem valueOf_treeOf {v : Value} (noReal : NoReal v) (read : v.IsRead scan) :
    valueOf scan (treeOf v) = some v := by
  induction noReal with
  | null | bool => rfl
  | int i =>
    rw [Value.IsRead] at read
    exact numberValue_integer (if_pos ⟨by omega, read.2⟩)
  | uint n =>
    rw [Value.IsRead] at read
    refine numberValue_integer ?_
    rw [integerValue, if_neg (by omega), if_pos (by omega), Int.toNat_natCast]
  | string s =>
    rw [Value.IsRead] at read
    rw [treeOf, valueOf, stringValue, cString_eq_self read]
  | @array values _ ih =>
    rw [Value.IsRead, Value.allRead_iff] at read
    have all (vs : List Value) (sub : ∀ v ∈ vs, v ∈ values) :
        elementsOf scan (elementTrees vs) = some vs := by
      induction vs with
      | nil => rfl
      | cons v vs ih' =>
        have first := ih v (sub v List.mem_cons_self) (read v (sub v List.mem_cons_self))
        have rest := ih' fun x mem => sub x (List.mem_cons_of_mem v mem)
        simp [elementTrees, elementsOf, first, rest]
    rw [treeOf, valueOf, all values fun _ => id]
    rfl
  | @object members _ ih =>
    rw [Value.IsRead, Value.membersRead_iff] at read
    have all : membersOf scan [] (memberTrees members) = some ([] ++ members) :=
      membersOf_behind [] members read.1 (fun m mem => (read.2 m mem).1)
        fun m mem => ih m mem (read.2 m mem).2
    rw [treeOf, valueOf, all]
    rfl

/-! ## Reading back -/

/-- What stands behind a written value, its newline first, is no part of it. -/
theorem parse_written {v : Value} {fuel : ℕ} (rest : Bytes) (noReal : NoReal v)
    (read : v.IsRead scan) (enough : (v.write doubleToString ++ rest).length < fuel) :
    Fuelled.Gives (parse scan fuel (v.write doubleToString ++ rest)) (some v, []) := by
  have place : v.write doubleToString ++ rest =
      [] ++ v.writeValue doubleToString ++ (text "\n" ++ rest) := by simp [Value.write]
  rw [place] at enough ⊢
  refine parse_text (derives_written noReal read) (valueOf_treeOf noReal read) .nil ?_ enough
  intro n _ c head
  cases head
  decide

/-- A value without reals is read back as itself, whatever is written behind it, exactly if its
numbers, strings and names are such as the parser makes and its members are in order. -/
theorem parse_write_iff {v : Value} {fuel : ℕ} (rest : Bytes) (noReal : NoReal v)
    (enough : (v.write doubleToString ++ rest).length < fuel) :
    (parse scan fuel (v.write doubleToString ++ rest)).run = .ok (some (some v, [])) ↔
      v.IsRead scan := by
  constructor
  · intro run
    have ends := parse_ends scan enough
    unfold Fuelled.Ends at ends
    rw [run] at ends
    obtain ⟨v', eq, read⟩ | ⟨e, eq, -⟩ := ends
    · cases eq
      exact read
    · cases eq
  · intro read
    exact parse_written rest noReal read enough

theorem parse_write_iff_reply :
    (parse (fun _ => none) 40 ((Value.object [(text "error_code", .int (-11))]).write
      (fun _ => []) ++ text "x")).run =
        .ok (some (some (.object [(text "error_code", .int (-11))]), [])) ↔
      (Value.object [(text "error_code", .int (-11))]).IsRead fun _ => none :=
  parse_write_iff (text "x") (.object (by simp [NoReal.int])) (by decide +kernel)

end JiaTuanServer.Json

import ErlangMacros.Proofs.Token.Spelling

/-!
# What digits are read as

Letters and decimal digits are worth their place among `0` to `9` and `a` to `z`, whatever their case, and digits write
the number that their worths write in a base (`Writes`).  In a base from 2 to 36, digits are read as what they write.  A
mark in front of them is allowed in the base that it stands for, and in base 0, where it chooses the base; without a mark
base 0 is ten (`ReadsAs`).  Nothing else is read (`integer?_eq_some_iff`).
-/

namespace ErlangMacros.Text

/-! ### Digits -/

/-- The digits of all bases, in order. -/
def digitChars : List Char :=
  ['0', '1', '2', '3', '4', '5', '6', '7', '8', '9', 'a', 'b', 'c', 'd', 'e', 'f', 'g', 'h', 'i', 'j', 'k', 'l', 'm', 'n',
    'o', 'p', 'q', 'r', 's', 't', 'u', 'v', 'w', 'x', 'y', 'z']

/-- What a character is worth as a digit.  A surrogate is worth no digit of any base. -/
def weight : CodePoint → Nat
  | .char c => digitChars.idxOf c.toLower
  | .surrogate _ => digitChars.length

/-- The digits write the number in the base. -/
structure Writes (base : Nat) (cs : List CodePoint) (n : Nat) : Prop where
  ne_nil : cs ≠ []
  weight_lt : ∀ c ∈ cs, weight c < base
  value_eq : n = Nat.ofDigits base (cs.reverse.map weight)

theorem digitValue?_eq_weight {c : CodePoint} (h : c.isAlphanum = true) : digitValue? c = some (weight c) :=
  forall_ascii (P := fun c => c.isAlphanum = true → digitValue? c = some (weight c)) (by decide +kernel)
    (Scan.toNat_lt_of_isAlphanum h) h

theorem ofDigits_eq_foldl (base : Nat) (cs : List CodePoint) :
    Nat.ofDigits base (cs.reverse.map weight) = cs.foldl (fun n c => n * base + weight c) 0 := by
  induction cs using List.reverseRecOn with
  | nil => rfl
  | append_singleton cs c ih =>
    rw [List.reverse_append, List.reverse_singleton, List.singleton_append, List.map_cons, Nat.ofDigits_cons, ih,
      List.foldl_append, List.foldl_cons, List.foldl_nil, Nat.mul_comm base, Nat.add_comm]

/-- What a letter or a decimal digit is when an integer is read. -/
theorem plain_of_isAlphanum {c : CodePoint} (h : c.isAlphanum = true) :
    integerChar? c = some c ∧ isIntegerBlank c = false ∧ c ≠ '_' ∧ c ≠ '-' ∧ c ≠ '+' :=
  forall_ascii
    (P := fun c => c.isAlphanum = true →
      integerChar? c = some c ∧ isIntegerBlank c = false ∧ c ≠ '_' ∧ c ≠ '-' ∧ c ≠ '+')
    (by decide +kernel) (Scan.toNat_lt_of_isAlphanum h) h

variable {base n : Nat} {cs : List CodePoint}

private theorem mem_ne_mark (h : ∀ c ∈ cs, c.isAlphanum = true) : .char '_' ∉ cs := by
  intro hmem
  exact (plain_of_isAlphanum (h '_' hmem)).2.2.1 rfl

/-- Digits without marks are read one by one. -/
theorem digitsValue?_true_eq_some_iff (h : ∀ c ∈ cs, c.isAlphanum = true) (acc : Nat) :
    digitsValue? base true acc cs = some n ↔
      (∀ c ∈ cs, weight c < base) ∧ n = cs.foldl (fun n c => n * base + weight c) acc := by
  induction cs generalizing acc with
  | nil => simp [digitsValue?, eq_comm]
  | cons c cs ih =>
    obtain ⟨hc, hcs⟩ := List.forall_mem_cons.1 h
    have hmark : (c == '_') = false := beq_false_of_ne (plain_of_isAlphanum hc).2.2.1
    rw [digitsValue?, hmark, digitValue?_eq_weight hc, List.forall_mem_cons, List.foldl_cons]
    by_cases hlt : weight c < base
    · simp [hlt, ih hcs]
    · simp [hlt]

theorem digitsValue?_eq_some_iff (h : ∀ c ∈ cs, c.isAlphanum = true) :
    digitsValue? base false 0 cs = some n ↔ Writes base cs n := by
  cases cs with
  | nil =>
    refine iff_of_false (by simp [digitsValue?]) fun hwrites => ?_
    exact hwrites.ne_nil rfl
  | cons c cs =>
    have hmark : (c == '_') = false := beq_false_of_ne (plain_of_isAlphanum (h c List.mem_cons_self)).2.2.1
    have hstart : digitsValue? base false 0 (c :: cs) = digitsValue? base true 0 (c :: cs) := by
      rw [digitsValue?, digitsValue?, hmark]
      rfl
    rw [hstart, digitsValue?_true_eq_some_iff h, ← ofDigits_eq_foldl]
    constructor
    · rintro ⟨hweight, hvalue⟩
      exact ⟨List.cons_ne_nil c cs, hweight, hvalue⟩
    · rintro ⟨-, hweight, hvalue⟩
      exact ⟨hweight, hvalue⟩

/-! ### Marks -/

/-- The marks behind a zero, and the bases that they stand for. -/
def markBases : List (CodePoint × Nat) :=
  [('x', 16), ('X', 16), ('o', 8), ('O', 8), ('b', 2), ('B', 2)]

private theorem baseOfMark?_eq_some_iff {m : CodePoint} {b : Nat} : baseOfMark? m = some b ↔ (m, b) ∈ markBases := by
  constructor
  · intro h
    simp only [baseOfMark?, Bool.or_eq_true, beq_iff_eq] at h
    split at h
    · next hm => rcases hm with rfl | rfl <;> cases h <;> decide
    split at h
    · next hm => rcases hm with rfl | rfl <;> cases h <;> decide
    split at h
    · next hm => rcases hm with rfl | rfl <;> cases h <;> decide
    · cases h
  · intro h
    simp only [markBases, List.mem_cons, Prod.mk.injEq, List.not_mem_nil, or_false] at h
    rcases h with ⟨rfl, rfl⟩ | ⟨rfl, rfl⟩ | ⟨rfl, rfl⟩ | ⟨rfl, rfl⟩ | ⟨rfl, rfl⟩ | ⟨rfl, rfl⟩ <;> rfl

/-- A mark is no digit in its own base, nor in base ten. -/
theorem weight_of_mark {m : CodePoint} {b : Nat} (h : (m, b) ∈ markBases) : b ≤ weight m ∧ 10 ≤ weight m := by
  have hall : ∀ s ∈ markBases, s.2 ≤ weight s.1 ∧ 10 ≤ weight s.1 := by decide +kernel
  exact hall (m, b) h

/-- What letters and digits are read as in a base. -/
inductive ReadsAs (base : Nat) (cs : List CodePoint) (n : Nat) : Prop where
  | digits (two_le : 2 ≤ base) (le : base ≤ 36) (writes : Writes base cs n)
  | marked {m : CodePoint} {b : Nat} {rest : List CodePoint} (cs_eq : cs = .char '0' :: m :: rest)
      (mark : (m, b) ∈ markBases) (base_eq : base = b ∨ base = 0) (writes : Writes b rest n)
  | unbased (base_eq : base = 0) (writes : Writes 10 cs n) (zero : cs.head? = some (.char '0') → n = 0)

private theorem afterMark_eq_self (h : .char '_' ∉ cs) : afterMark cs = cs := by
  unfold afterMark
  split
  · exact absurd List.mem_cons_self h
  · rfl

private theorem natural?_marked {m : CodePoint} {b : Nat} (rest : List CodePoint) (hm : (m, b) ∈ markBases)
    (hbase : base = b ∨ base = 0) : natural? base (.char '0' :: m :: rest) = digitsValue? b false 0 (afterMark rest) := by
  have hb : baseOfMark? m = some b := baseOfMark?_eq_some_iff.2 hm
  simp [natural?, hb, hbase]

/-- Without a mark, the digits are in the base that is given. -/
theorem natural?_based (hbase : base ≠ 0)
    (hno : ∀ m b rest, cs = .char '0' :: m :: rest → (m, b) ∈ markBases → ¬ (base = b ∨ base = 0)) :
    natural? base cs = digitsValue? base false 0 cs := by
  unfold natural?
  split
  · next m rest =>
    split
    · next b hb => simpa using fun heq => absurd heq (hno m b rest rfl (baseOfMark?_eq_some_iff.1 hb))
    · rw [if_neg hbase]
  · rw [if_neg hbase]

/-- Without a mark and a base, the digits are decimal, and zero if they start with it. -/
theorem natural?_unbased_eq_some_iff (hno : ∀ m b rest, cs = .char '0' :: m :: rest → (m, b) ∉ markBases) :
    natural? 0 cs = some n ↔ digitsValue? 10 false 0 cs = some n ∧ (cs.head? = some (.char '0') → n = 0) := by
  unfold natural?
  split
  · next m rest =>
    split
    · next b hb => exact absurd (baseOfMark?_eq_some_iff.1 hb) (hno m b rest rfl)
    · simp [Option.filter_eq_some_iff]
  · next hother =>
    rw [if_pos rfl, iff_self_and]
    intro hvalue hhead
    rcases cs with _ | ⟨c, _ | ⟨d, cs⟩⟩
    · cases hhead
    · cases hhead
      exact (Option.some.inj hvalue).symm
    · cases hhead
      exact absurd rfl (hother d cs)

/-- Letters and digits are read as they may be, and in no other way. -/
theorem natural?_eq_some_iff (h : ∀ c ∈ cs, c.isAlphanum = true) (hbase : base = 0 ∨ 2 ≤ base ∧ base ≤ 36) :
    natural? base cs = some n ↔ ReadsAs base cs n := by
  by_cases hmarked : ∃ m b rest, cs = .char '0' :: m :: rest ∧ (m, b) ∈ markBases ∧ (base = b ∨ base = 0)
  · obtain ⟨m, b, rest, rfl, hm, hb⟩ := hmarked
    have hrest : ∀ c ∈ rest, c.isAlphanum = true := fun c hc => h c (by simp [hc])
    have hweight := weight_of_mark hm
    rw [natural?_marked rest hm hb, afterMark_eq_self (mem_ne_mark hrest), digitsValue?_eq_some_iff hrest]
    constructor
    · exact .marked rfl hm hb
    · intro hreads
      cases hreads with
      | digits htwo _ hwrites =>
        have hlt : weight m < base := hwrites.weight_lt m (by simp)
        omega
      | @marked m' b' rest' heq hm' _ hwrites =>
        cases heq
        have hsame : some b' = some b := (baseOfMark?_eq_some_iff.2 hm').symm.trans (baseOfMark?_eq_some_iff.2 hm)
        cases hsame
        exact hwrites
      | unbased _ hwrites _ =>
        have hlt : weight m < 10 := hwrites.weight_lt m (by simp)
        omega
  · by_cases hzero : base = 0
    · subst hzero
      have hno : ∀ m b rest, cs = .char '0' :: m :: rest → (m, b) ∉ markBases :=
        fun m b rest hcs hm => hmarked ⟨m, b, rest, hcs, hm, .inr rfl⟩
      rw [natural?_unbased_eq_some_iff hno, digitsValue?_eq_some_iff h]
      constructor
      · rintro ⟨hwrites, hhead⟩
        exact .unbased rfl hwrites hhead
      · intro hreads
        cases hreads with
        | digits htwo _ _ => omega
        | marked hcs hm _ _ => exact absurd hm (hno _ _ _ hcs)
        | unbased _ hwrites hhead => exact ⟨hwrites, hhead⟩
    · have hno : ∀ m b rest, cs = .char '0' :: m :: rest → (m, b) ∈ markBases → ¬ (base = b ∨ base = 0) :=
        fun m b rest hcs hm hb => hmarked ⟨m, b, rest, hcs, hm, hb⟩
      obtain ⟨htwo, hle⟩ := hbase.resolve_left hzero
      rw [natural?_based hzero hno, digitsValue?_eq_some_iff h]
      constructor
      · exact .digits htwo hle
      · intro hreads
        cases hreads with
        | digits _ _ hwrites => exact hwrites
        | marked hcs hm hb _ => exact absurd hb (hno _ _ _ hcs hm)
        | unbased hbase _ _ => exact absurd hbase hzero

/-! ### Integers -/

private theorem mapM_integerChar? (h : ∀ c ∈ cs, c.isAlphanum = true) : cs.mapM integerChar? = some cs := by
  induction cs with
  | nil => rfl
  | cons c cs ih =>
    obtain ⟨hc, hcs⟩ := List.forall_mem_cons.1 h
    rw [List.mapM_cons, (plain_of_isAlphanum hc).1, ih hcs]
    rfl

private theorem dropWhile_isIntegerBlank (h : ∀ c ∈ cs, c.isAlphanum = true) : cs.dropWhile isIntegerBlank = cs := by
  cases cs with
  | nil => rfl
  | cons c cs => simp [(plain_of_isAlphanum (h c List.mem_cons_self)).2.1]

private theorem trimBlanks_eq_self (h : ∀ c ∈ cs, c.isAlphanum = true) : trimBlanks cs = cs := by
  rw [trimBlanks, dropWhile_isIntegerBlank h, dropWhile_isIntegerBlank fun c hc => h c (List.mem_reverse.1 hc),
    List.reverse_reverse]

private theorem signed?_eq (h : ∀ c ∈ cs, c.isAlphanum = true) :
    signed? base cs = (natural? base cs).map Int.ofNat := by
  unfold signed?
  split
  · exact absurd rfl (plain_of_isAlphanum (h '-' List.mem_cons_self)).2.2.2.1
  · exact absurd rfl (plain_of_isAlphanum (h '+' List.mem_cons_self)).2.2.2.2
  · rcases natural? base cs with _ | n <;> rfl

/-- Letters and digits are an integer if and only if they are read as one. -/
theorem integer?_eq_some_iff (h : ∀ c ∈ cs, c.isAlphanum = true) {v : Int} :
    integer? base cs = some v ↔ ∃ n : Nat, v = n ∧ ReadsAs base cs n := by
  by_cases hbase : base = 0 ∨ 2 ≤ base ∧ base ≤ 36
  · rw [integer?, if_pos (by simpa using hbase), mapM_integerChar? h, Option.bind_some, trimBlanks_eq_self h,
      signed?_eq h]
    constructor
    · intro hv
      obtain ⟨n, hn, rfl⟩ := Option.map_eq_some_iff.1 hv
      exact ⟨n, rfl, (natural?_eq_some_iff h hbase).1 hn⟩
    · rintro ⟨n, rfl, hreads⟩
      rw [(natural?_eq_some_iff h hbase).2 hreads]
      rfl
  · rw [integer?, if_neg (by simpa using hbase)]
    refine iff_of_false (by simp) ?_
    rintro ⟨n, -, hreads⟩
    cases hreads with
    | digits htwo hle _ => exact hbase (.inr ⟨htwo, hle⟩)
    | marked _ hm hb _ =>
      have hmarks : ∀ s ∈ markBases, 2 ≤ s.2 ∧ s.2 ≤ 36 := by decide
      have hrange := hmarks _ hm
      dsimp only at hrange
      omega
    | unbased hzero _ _ => exact hbase (.inl hzero)

end ErlangMacros.Text

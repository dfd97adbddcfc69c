-- SUMMARY: The types of numeric literals: where the type that a range takes from its first bound is the type of the bound, and which numbers it takes for others.
import Mathlib.Data.List.Infix
import Recast.Framework.NUnit
import Recast.Proofs.Source.Cutting
import Recast.Types.Scope

/-! # Numerals

The type of a number is read off its ending and off what it contains, once where an expression is
typed (`Builtin.ofNumber`) and once where a range is (`NUnit.rangeType`). The second reading knows
no bases, so it takes the last digit of a number in base sixteen for a suffix; and it knows neither
unsigned suffixes nor exponents. On all other numbers the two agree. -/

namespace Recast

/-! ## Endings and small letters -/

namespace Text

theorem startsWith_eq_true_iff {text head : String} :
    startsWith text head = true ↔ head.toList <+: text.toList := by
  rw [startsWith, after?, Option.isSome_map, Option.isSome_iff_exists]
  exact exists_congr fun rest => dropHead?_eq_some_iff.trans eq_comm

theorem endsWith_eq_true_iff {text tail : String} :
    endsWith text tail = true ↔ tail.toList <:+ text.toList := by
  rw [endsWith, before?, Option.isSome_map, Option.isSome_iff_exists, ← List.reverse_prefix]
  exact exists_congr fun rest => dropHead?_eq_some_iff.trans eq_comm

/-- An ending of one character is the last character. -/
theorem endsWith_eq_last {tail : String} {c : Char} (htail : tail.toList = [c]) (text : String) :
    endsWith text tail = (text.toList.getLast? == some c) := by
  rw [Bool.eq_iff_iff, endsWith_eq_true_iff, htail, List.singleton_suffix_iff_getLast?_eq_some,
    beq_iff_eq]

theorem last_of_endsWith {text tail : String} (h : endsWith text tail = true)
    (hne : tail.toList ≠ []) : text.toList.getLast? = tail.toList.getLast? := by
  obtain ⟨front, hfront⟩ := endsWith_eq_true_iff.1 h
  rw [← hfront, List.getLast?_append_of_ne_nil _ hne]

/-- What starts with two characters in small letters has them at its first two places. -/
theorem exists_of_startsWith_lower {text head : String} {a b : Char} (hhead : head.toList = [a, b])
    (h : startsWith (lower text) head = true) :
    ∃ d c more, text.toList = d :: c :: more ∧ lowerChar c = b := by
  obtain ⟨rest, hrest⟩ := startsWith_eq_true_iff.1 h
  rw [hhead, lower, String.toList_ofList] at hrest
  obtain ⟨d, tail, htext, -, htail⟩ := List.map_eq_cons_iff.1 hrest.symm
  obtain ⟨c, more, rfl, hc, -⟩ := List.map_eq_cons_iff.1 htail
  exact ⟨d, c, more, htext, hc⟩

theorem lowerChar_of_isAsciiDigit {c : Char} (h : isAsciiDigit c = true) : lowerChar c = c := by
  have hplain : ¬('A' ≤ c && c ≤ 'Z') = true := by
    simp only [isAsciiDigit, Bool.and_eq_true, decide_eq_true_eq, Char.le_def,
      UInt32.le_iff_toNat_le] at h ⊢
    have hnine : ('9' : Char).val.toNat < ('A' : Char).val.toNat := by decide
    omega
  exact if_neg hplain

theorem toNat_ofNat_of_lt {n : Nat} (h : n < 0xd800) : (Char.ofNat n).toNat = n := by
  have hvalid : Char.ofNat n = Char.ofNatAux n (.inl h) := dif_pos (.inl h)
  rw [hvalid]
  rfl

theorem lowerChar_eq_point_iff {c : Char} : lowerChar c = '.' ↔ c = '.' := by
  refine ⟨fun h => ?_, fun h => by rw [h]; decide⟩
  rw [lowerChar] at h
  split at h
  · rename_i hcapital
    simp only [Bool.and_eq_true, decide_eq_true_eq, Char.le_def, UInt32.le_iff_toNat_le,
      Char.toNat_val] at hcapital
    have hlow : ('.' : Char).toNat < ('A' : Char).toNat := by decide
    have hhigh : ('Z' : Char).toNat + 32 < 0xd800 := by decide
    -- A capital is made a letter, and the point comes before all letters.
    have hletter : (Char.ofNat (c.toNat + 32)).toNat = c.toNat + 32 := toNat_ofNat_of_lt (by omega)
    rw [h] at hletter
    omega
  · exact h

theorem contains_lower_point (text : String) : contains (lower text) "." = contains text "." := by
  have hpoint : ".".toList = ['.'] := rfl
  rw [Bool.eq_iff_iff, contains_eq_true_iff, contains_eq_true_iff, hpoint, List.singleton_infix_iff,
    List.singleton_infix_iff, lower, String.toList_ofList, List.mem_map]
  simp only [lowerChar_eq_point_iff, exists_eq_right]

end Text

/-! ## What numbers are made of -/

namespace Scan

/-- All characters that the scanner takes are in a class. -/
def Within (p : Char → Prop) (s : Scan) : Prop :=
  ∀ ⦃cs l rest⦄, s cs = some (l, rest) → ∀ c ∈ l, p c

section Within

variable {p : Char → Prop} {q : Char → Bool}

theorem within_literal {text : String} (h : ∀ c ∈ text.toList, p c) : Within p (literal text) := by
  intro cs l rest hscan
  rwa [(literal_eq_some_iff.1 hscan).1]

theorem within_one (h : ∀ c, q c = true → p c) : Within p (one q) := by
  intro cs l rest hscan
  obtain ⟨c, hc, -, rfl⟩ := one_eq_some_iff.1 hscan
  exact List.forall_mem_singleton.2 (h c hc)

theorem within_run (h : ∀ c, q c = true → p c) : Within p (run q) :=
  fun _ _ _ hscan c hc => h c ((run_eq_some hscan).1 c hc)

theorem Within.seq {s t : Scan} (hs : Within p s) (ht : Within p t) : Within p (seq s t) := by
  intro cs l rest hscan
  obtain ⟨_, _, _, hfirst, hsecond, rfl⟩ := seq_eq_some_iff.1 hscan
  exact List.forall_mem_append.2 ⟨hs hfirst, ht hsecond⟩

theorem within_run1 (h : ∀ c, q c = true → p c) : Within p (run1 q) :=
  (within_one h).seq (within_run h)

theorem Within.opt {s : Scan} (hs : Within p s) : Within p (opt s) := by
  intro cs l rest hscan
  rcases opt_eq_some hscan with ⟨rfl, -⟩ | hscan
  · exact List.forall_mem_nil _
  · exact hs hscan

end Within

theorem ne_point {q : Char → Bool} (hq : q '.' = false) (c : Char) (hc : q c = true) : c ≠ '.' := by
  rintro rfl
  rw [hq] at hc
  cases hc

theorem within_basedNumber : Within (· ≠ '.') basedNumber :=
  (within_literal (by simp)).seq ((within_one (ne_point rfl)).seq
    ((within_run1 (ne_point rfl)).seq (within_run (ne_point rfl))))

/-- What a number has in front of its point. -/
def isWhole (c : Char) : Bool :=
  Text.isAsciiDigit c || c == '_'

theorem decimalNumber_eq_some {cs l rest : List Char} (h : decimalNumber cs = some (l, rest)) :
    ∃ d whole fraction, l = d :: whole ++ fraction ∧ Text.isAsciiDigit d = true ∧
      (∀ c ∈ whole, isWhole c = true) ∧ ('.' ∈ fraction → ∃ more, fraction = '.' :: more) := by
  unfold decimalNumber at h
  obtain ⟨_, _, _, hdigits, hmore, rfl⟩ := seq_eq_some_iff.1 h
  obtain ⟨_, _, digits, hone, hrun, rfl⟩ := seq_eq_some_iff.1 hdigits
  obtain ⟨d, hd, -, rfl⟩ := one_eq_some_iff.1 hone
  obtain ⟨marked, _, _, hmarked, hfraction, rfl⟩ := seq_eq_some_iff.1 hmore
  obtain ⟨point, _, last, hpoint, hlast, rfl⟩ := seq_eq_some_iff.1 hfraction
  refine ⟨d, digits ++ marked, point ++ last, by simp, hd, ?_, ?_⟩
  · refine List.forall_mem_append.2 ⟨fun c hc => ?_, (run_eq_some hmarked).1⟩
    rw [isWhole, (run_eq_some hrun).1 c hc, Bool.true_or]
  · intro hmem
    rcases opt_eq_some hpoint with ⟨rfl, -⟩ | hpoint
    · -- Neither the exponent nor the suffix has a point.
      have hlast : ∀ c ∈ last, c ≠ '.' :=
        (((within_one (ne_point rfl)).seq ((within_one (ne_point rfl)).opt.seq
          (within_run1 (ne_point rfl)))).opt.seq (within_run (ne_point rfl))) hlast
      exact absurd rfl (hlast '.' hmem)
    · obtain ⟨_, _, more, hmark, -, rfl⟩ := seq_eq_some_iff.1 hpoint
      rw [(literal_eq_some_iff.1 hmark).1]
      exact ⟨more ++ last, rfl⟩

theorem number_head {cs l rest : List Char} (h : number cs = some (l, rest)) :
    ∃ d more, l = d :: more ∧ Text.isAsciiDigit d = true := by
  unfold number or at h
  split at h
  · obtain ⟨d, whole, fraction, rfl, hd, -⟩ := decimalNumber_eq_some h
    exact ⟨d, whole ++ fraction, rfl, hd⟩
  · rename_i hbased
    obtain ⟨_, _, more, hzero, -, rfl⟩ := seq_eq_some_iff.1 (hbased.trans h)
    rw [(literal_eq_some_iff.1 hzero).1]
    exact ⟨'0', more, rfl, rfl⟩

/-- In a number with a point the second character belongs to what is in front of it, or is it. -/
theorem isWhole_of_number {cs more rest : List Char} {d c : Char}
    (h : number cs = some (d :: c :: more, rest)) (hpoint : '.' ∈ d :: c :: more) :
    isWhole c = true ∨ c = '.' := by
  unfold number or at h
  split at h
  · obtain ⟨d', whole, fraction, hsplit, hd, hwhole, hfraction⟩ := decimalNumber_eq_some h
    obtain ⟨rfl, hmore⟩ := List.cons.inj hsplit
    cases whole with
    | cons c' whole =>
      obtain ⟨rfl, -⟩ := List.cons.inj hmore
      exact .inl (hwhole _ List.mem_cons_self)
    | nil =>
      obtain rfl : c :: more = fraction := hmore
      have hne : '.' ≠ d := by
        rintro rfl
        cases hd
      obtain ⟨_, hmark⟩ := hfraction ((List.mem_cons.1 hpoint).resolve_left hne)
      exact .inr (List.cons.inj hmark).1
  · rename_i hbased
    exact absurd rfl (within_basedNumber (hbased.trans h) '.' hpoint)

end Scan

/-! ## Types -/

namespace Numeral

/-- A number in base sixteen or two. -/
def isBased (text : String) : Bool :=
  Text.startsWith (Text.lower text) "0x" || Text.startsWith (Text.lower text) "0b"

/-- The numbers that a range is not typed by. Those in base sixteen or two whose last digit reads as
    a suffix; and in base ten the unsigned ones, and those with an exponent and neither a point nor
    a suffix. -/
def isMisread (text : String) : Bool :=
  let small := Text.lower text
  let ends := Text.endsWith small
  if isBased text then ends "f" || ends "d" || ends "m"
  else ends "u" || ends "ul" || Text.contains small "e" &&
    !(Text.contains small "." || ends "l" || ends "f" || ends "d" || ends "m")

/-- The whole text is a number. -/
def IsNumber (text : String) : Prop :=
  Scan.number text.toList = some (text.toList, [])

theorem number_of_lexeme? {cs rest : List Char} {text : String}
    (h : Token.lexeme? cs = some (.number, text, rest)) :
    Scan.number cs = some (text.toList, rest) := by
  have hother : ∀ {other : TokenKind} {scan : Scan}, other ≠ .number →
      Token.lexemeBy other scan cs ≠ some (.number, text, rest) :=
    fun hkind hsome => hkind (Token.lexemeBy_eq_some hsome).1.symm
  rcases eq_some_of_orElse h with h | h
  · exact absurd h (hother (by decide))
  rcases eq_some_of_orElse h with h | h
  · exact absurd h (hother (by decide))
  rcases eq_some_of_orElse h with h | h
  · exact absurd h (hother (by decide))
  rcases eq_some_of_orElse h with h | h
  · exact (Token.lexemeBy_eq_some h).2
  rcases eq_some_of_orElse h with h | h
  · -- A word is reserved or a name.
    obtain ⟨_, -, heq⟩ := Option.map_eq_some_iff.1 h
    have hkind := congrArg Prod.fst heq
    dsimp only at hkind
    split at hkind <;> cases hkind
  · exact absurd h (hother (by decide))

/-- A text that is scanned into a number of its own text holds nothing else. -/
theorem isNumber_of_scan {t : Token} {rest : List Token} (h : Token.scan t.text = .ok (t :: rest))
    (hkind : t.kind = .number) : IsNumber t.text := by
  have hsplit := Trivia.leadingRun_split t.text.toList.length t.text.toList
  rcases Token.scanFrom_cases h with ⟨-, hend⟩ | ⟨_, _, _, following, after, _, -, heq, hstep, -⟩
  · rw [(List.cons.inj hend).1] at hkind
    cases hkind
  · obtain ⟨rfl, -⟩ := List.cons.inj heq
    have hhead := hstep.heads.split
    have hlexeme := hstep.lexeme_eq
    generalize (Trivia.textOf t.trailing).toList ++ ((Trivia.textOf following).toList ++ after) =
      behind at hhead hlexeme
    generalize (Trivia.leadingRun t.text.toList.length t.text.toList).2 = cs at hsplit hhead hlexeme
    have hlength := congrArg List.length hsplit
    have hlength' := congrArg List.length hhead
    simp only [List.length_append] at hlength hlength'
    obtain rfl : behind = [] := List.length_eq_zero_iff.1 (by omega)
    rw [List.append_nil] at hhead
    rw [hhead, hkind] at hlexeme
    exact number_of_lexeme? hlexeme

theorem IsNumber.dropSign {text : String} (h : IsNumber text) :
    String.ofList (text.toList.dropWhile (· == '-')) = text := by
  obtain ⟨d, more, htext, hd⟩ := Scan.number_head h
  have hsign : (d == '-') = false := by
    rw [beq_eq_false_iff_ne]
    rintro rfl
    cases hd
  rw [htext, List.dropWhile_cons_of_neg (by simp [hsign]), ← htext, String.ofList_toList]

theorem IsNumber.no_point {text : String} (h : IsNumber text) (hbased : isBased text = true) :
    Text.contains text "." = false := by
  obtain ⟨d, c, more, htext, hc⟩ : ∃ d c more, text.toList = d :: c :: more ∧
      (Text.lowerChar c = 'x' ∨ Text.lowerChar c = 'b') := by
    rw [isBased, Bool.or_eq_true] at hbased
    rcases hbased with hbased | hbased
    · obtain ⟨d, c, more, htext, hc⟩ := Text.exists_of_startsWith_lower rfl hbased
      exact ⟨d, c, more, htext, .inl hc⟩
    · obtain ⟨d, c, more, htext, hc⟩ := Text.exists_of_startsWith_lower rfl hbased
      exact ⟨d, c, more, htext, .inr hc⟩
  refine Bool.eq_false_iff.2 fun hpoint => ?_
  rw [Text.contains_eq_true_iff] at hpoint
  have hpoint := (List.singleton_infix_iff '.' text.toList).1 hpoint
  rw [IsNumber, htext] at h
  rw [htext] at hpoint
  -- Neither a digit nor a mark nor the point is the second character of a base.
  rcases Scan.isWhole_of_number h hpoint with hwhole | rfl
  · rw [Scan.isWhole, Bool.or_eq_true, beq_iff_eq] at hwhole
    rcases hwhole with hdigit | rfl
    · rw [Text.lowerChar_of_isAsciiDigit hdigit] at hc
      rcases hc with rfl | rfl <;> cases hdigit
    · revert hc
      decide
  · revert hc
    decide

end Numeral

namespace Builtin

/-- The keyword of a built-in type. -/
def keyword? (name : String) : Option String :=
  (types.find? fun (_, n, _) => n == name).map fun (keyword, _, _) => keyword

theorem keyword?_ofNumber (text : String) :
    keyword? (ofNumber text) = some (
      let ends := Text.endsWith (Text.lower text)
      if Numeral.isBased text then if ends "l" then "long" else "int"
      else if ends "ul" || ends "lu" then "ulong"
      else if ends "l" then "long"
      else if ends "u" then "uint"
      else if ends "f" then "float"
      else if ends "m" then "decimal"
      else if ends "d" || Text.contains (Text.lower text) "." || Text.contains (Text.lower text) "e"
        then "double"
      else "int") := by
  simp only [ofNumber, Numeral.isBased]
  repeat' split
  all_goals rfl

end Builtin

theorem Framework.NUnit.rangeType_number {text : String} (h : Numeral.IsNumber text) :
    rangeType (some text) none =
      let ends := Text.endsWith (Text.lower text)
      if ends "l" then "long"
      else if ends "f" then "float"
      else if ends "m" then "decimal"
      else if ends "d" || Text.contains text "." then "double"
      else "int" := by
  simp only [rangeType, literalType?, Option.bind_some, h.dropSign]
  repeat' split
  all_goals rfl

/-- A range takes the type of its first bound from the number that stands there exactly when the
    number is none of those that it misreads. -/
theorem range_typed_as_number {t : Token} {rest : List Token}
    (h : Token.scan t.text = .ok (t :: rest)) (hkind : t.kind = .number) :
    Builtin.keyword? (Builtin.ofNumber t.text) =
        some (Framework.NUnit.rangeType (some t.text) none) ↔
      Numeral.isMisread t.text = false := by
  have hnumber := Numeral.isNumber_of_scan h hkind
  have hpoint := hnumber.no_point
  have hul : Text.endsWith (Text.lower t.text) "ul" = true →
      (Text.lower t.text).toList.getLast? = some 'l' :=
    fun h => Text.last_of_endsWith h (by decide)
  have hlu : Text.endsWith (Text.lower t.text) "lu" = true →
      (Text.lower t.text).toList.getLast? = some 'u' :=
    fun h => Text.last_of_endsWith h (by decide)
  rw [Builtin.keyword?_ofNumber, Framework.NUnit.rangeType_number hnumber, Numeral.isMisread]
  simp only [Text.contains_lower_point, Option.some.injEq,
    Text.endsWith_eq_last (show "l".toList = ['l'] from rfl),
    Text.endsWith_eq_last (show "u".toList = ['u'] from rfl),
    Text.endsWith_eq_last (show "f".toList = ['f'] from rfl),
    Text.endsWith_eq_last (show "m".toList = ['m'] from rfl),
    Text.endsWith_eq_last (show "d".toList = ['d'] from rfl)]
  generalize (Text.lower t.text).toList.getLast? = last at hul hlu
  generalize Text.contains t.text "." = point at hpoint
  generalize Text.contains (Text.lower t.text) "e" = exponent
  generalize Text.endsWith (Text.lower t.text) "ul" = unsignedLong at hul
  generalize Text.endsWith (Text.lower t.text) "lu" = longUnsigned at hlu
  generalize Numeral.isBased t.text = based at hpoint
  -- Both readings go by the last character; the rest counts where it is no suffix.
  by_cases hl : last = some 'l'
  · subst hl
    obtain rfl : longUnsigned = false := by simpa using hlu
    cases based <;> cases unsignedLong <;> simp
  obtain rfl : unsignedLong = false := by simpa [hl] using hul
  by_cases hu : last = some 'u'
  · subst hu
    cases based
    · cases longUnsigned <;> cases point <;> simp
    · simp [hpoint]
  obtain rfl : longUnsigned = false := by simpa [hu] using hlu
  by_cases hf : last = some 'f'
  · subst hf
    cases based <;> simp
  by_cases hm : last = some 'm'
  · subst hm
    cases based <;> simp
  by_cases hd : last = some 'd'
  · subst hd
    cases based <;> simp
  cases based <;> cases point <;> cases exponent <;> simp_all

theorem exists_number (text : String)
    (h : (Token.scan text).toOption.map (fun ts => ts.map fun t => (t.kind, t.text)) =
      some [(.number, text), (.endOfFile, "")]) :
    ∃ t rest, Token.scan text = .ok (t :: rest) ∧ t.kind = .number ∧ t.text = text := by
  obtain ⟨ts, hts, htexts⟩ := exists_ok_of_map h
  obtain ⟨t, rest, rfl, ht, -⟩ := List.map_eq_cons_iff.1 htexts
  obtain ⟨hkind, htext⟩ := Prod.mk.inj ht
  exact ⟨t, rest, hts, hkind, htext⟩

/-- Digits in base sixteen that look like suffixes, with a suffix behind them. -/
theorem range_typed_as_number_long :
    ∃ t rest, Token.scan t.text = .ok (t :: rest) ∧ t.kind = .number ∧ t.text = "0xFDL" ∧
      Numeral.isMisread t.text = false ∧
      Builtin.keyword? (Builtin.ofNumber t.text) =
        some (Framework.NUnit.rangeType (some t.text) none) := by
  obtain ⟨t, rest, hscan, hkind, htext⟩ := exists_number "0xFDL" (by decide +kernel)
  rw [← htext] at hscan
  have hread : Numeral.isMisread t.text = false := by
    rw [htext]
    decide +kernel
  exact ⟨t, rest, hscan, hkind, htext, hread, (range_typed_as_number hscan hkind).2 hread⟩

/-- The last digit of a number in base sixteen makes a range one of `float`. -/
theorem not_range_typed_as_number_sixteen :
    ¬ ∀ (t : Token) (rest : List Token), Token.scan t.text = .ok (t :: rest) → t.kind = .number →
      Builtin.keyword? (Builtin.ofNumber t.text) =
        some (Framework.NUnit.rangeType (some t.text) none) := by
  intro hall
  obtain ⟨t, rest, hscan, hkind, htext⟩ := exists_number "0xFF" (by decide +kernel)
  have hsame := hall t rest (htext ▸ hscan) hkind
  rw [htext] at hsame
  exact absurd hsame (by decide +kernel)

end Recast

import Mathlib.Data.List.Induction
import ScriptPress.Options

/-! # The fields of the options

An options file has one key for each field of the options, and the values of a field are of one of
four kinds. What a text means as a value is said here apart from the functions that read it: a text
that means a value is read as that value, any other is refused with the problem of its kind, and a
setting changes its own field and no other.
-/
namespace ScriptPress
namespace Options

/-! ## Values -/

/-- The words for yes and the words for no. -/
def words : Bool → List String
  | true => ["true", "yes", "on", "1"]
  | false => ["false", "no", "off", "0"]

/-- A text is a word for yes, or one for no, in any case. -/
def Answers (text : List Char) (on : Bool) : Prop := String.ofList (Text.lower text) ∈ words on

/-- The decimal digits of a number, behind some more zeros. -/
def numeral (zeros n : Nat) : List Char := List.replicate zeros '0' ++ Nat.toDigits 10 n

/-- A text is a numeral of a number of 32 bits, with a plus sign or without. -/
def Counts (text : List Char) (n : Nat) : Prop :=
  n < UInt32.size ∧ ∃ zeros, text = numeral zeros n ∨ text = '+' :: numeral zeros n

/-- The kinds of values a key can take. -/
inductive Kind where
  | version | locale | boolean | width
  deriving Repr, DecidableEq

namespace Kind

def Value : Kind → Type
  | version => Dialect
  | locale => Locale
  | boolean => Bool
  | width => Nat

/-- A text means a value. For versions and locales that is as their readers have it. -/
def Means : (k : Kind) → List Char → k.Value → Prop
  | version, text, d => readVersion text = .ok d
  | locale, text, l => Locale.ofTag? (String.ofList text) = some l
  | boolean, text, on => Answers text on
  | width, text, n => Counts text n

/-- The problem with a text that means no value and stands for the value of a key. -/
def Refuses (k : Kind) (key : String) (text : List Char) (problem : OptionProblem) : Prop :=
  match k with
  | version => readVersion text = .error problem
  | locale => (∀ l, ¬ locale.Means text l) ∧ problem = .unknownLocale (String.ofList text)
  | boolean => (∀ on, ¬ boolean.Means text on) ∧ problem = .badBoolean key (String.ofList text)
  | width => (∀ n, ¬ width.Means text n) ∧ problem = .badWidth key (String.ofList text)

theorem means_or_refuses (k : Kind) (key : String) (text : List Char) :
    (∃ v, k.Means text v) ∨ ∃ problem, k.Refuses key text problem := by
  by_cases h : ∃ v, k.Means text v
  · exact .inl h
  · have hnone := not_exists.mp h
    cases k with
    | version =>
      cases hread : readVersion text with
      | ok d => exact absurd hread (hnone d)
      | error problem => exact .inr ⟨problem, hread⟩
    | locale | boolean | width => exact .inr ⟨_, hnone, rfl⟩

end Kind

/-! ## Reading booleans and widths -/

variable {text digits : List Char} {on : Bool} {n : Nat}

theorem readBoolean?_eq_some_iff : readBoolean? text = some on ↔ Answers text on := by
  simp only [readBoolean?, Answers, List.contains_iff_mem]
  generalize String.ofList (Text.lower text) = word
  have hapart : ¬ (word ∈ words true ∧ word ∈ words false) := by
    rintro ⟨hyes, hno⟩
    simp only [words, List.mem_cons, List.not_mem_nil, or_false] at hyes hno
    rcases hyes with rfl | rfl | rfl | rfl <;> simp at hno
  change (if word ∈ words true then _ else if word ∈ words false then _ else _) = _ ↔ _
  cases on <;> grind

theorem digitChar_of_isDigit {c : Char} (h : Text.isDigit c) :
    ∃ d < 10, c = Nat.digitChar d ∧ c.toNat - '0'.toNat = d := by
  have hc : 48 ≤ c.toNat ∧ c.toNat ≤ 57 := Char.isDigit_iff_toNat.mp h
  have hlt : c.toNat - 48 < 10 := by omega
  refine ⟨c.toNat - 48, hlt, Char.toNat_inj.mp ?_, rfl⟩
  rw [Nat.toNat_digitChar_of_lt_ten hlt]
  omega

theorem digitsValue_concat (digits : List Char) (c : Char) :
    Text.digitsValue (digits ++ [c]) = 10 * Text.digitsValue digits + (c.toNat - '0'.toNat) := by
  simp [Text.digitsValue]

theorem digitsValue_numeral (zeros n : Nat) : Text.digitsValue (numeral zeros n) = n := by
  change Nat.ofDigitChars 10 (numeral zeros n) 0 = n
  rw [numeral, Nat.ofDigitChars_append, Nat.ofDigitChars_replicate_zero, Nat.mul_zero,
    Nat.ofDigitChars_ten_toDigits]

/-- Behind a numeral a further digit makes a numeral. -/
theorem numeral_concat (zeros : Nat) {d : Nat} (hd : d < 10) :
    ∃ zeros', numeral zeros n ++ [Nat.digitChar d] = numeral zeros' (10 * n + d) := by
  rcases Nat.eq_zero_or_pos n with rfl | hn
  · -- The digit of zero becomes one more zero in front.
    refine ⟨zeros + 1, ?_⟩
    rw [numeral, numeral, Nat.toDigits_zero, Nat.mul_zero, Nat.zero_add, Nat.toDigits_of_lt_base hd,
      List.replicate_succ']
  · refine ⟨zeros, ?_⟩
    rw [numeral, numeral, List.append_assoc, ← Nat.toDigits_of_lt_base hd,
      Nat.toDigits_append_toDigits (by decide) hn hd]

/-- Every run of digits is a numeral of its value. -/
theorem exists_numeral (hne : digits ≠ []) (hdigits : digits.all Text.isDigit) :
    ∃ zeros, digits = numeral zeros (Text.digitsValue digits) := by
  induction digits using List.reverseRecOn with
  | nil => exact absurd rfl hne
  | append_singleton digits c ih =>
    rw [List.all_append, Bool.and_eq_true, List.all_cons, Bool.and_eq_true] at hdigits
    obtain ⟨d, hd, hc, hvalue⟩ := digitChar_of_isDigit hdigits.2.1
    rw [digitsValue_concat, hvalue, hc]
    by_cases hfirst : digits = []
    · subst hfirst
      have hsingle : 10 * Text.digitsValue [] + d = d := Nat.zero_add d
      rw [hsingle]
      exact ⟨0, (Nat.toDigits_of_lt_base hd).symm⟩
    · obtain ⟨zeros, hzeros⟩ := ih hfirst hdigits.1
      obtain ⟨more, hmore⟩ := numeral_concat (n := Text.digitsValue digits) zeros hd
      exact ⟨more, by rw [← hmore, ← hzeros]⟩

theorem numeral_ne_nil (zeros n : Nat) : numeral zeros n ≠ [] :=
  List.append_ne_nil_of_right_ne_nil _ Nat.toDigits_ne_nil

theorem isDigit_of_mem_numeral {zeros n : Nat} {c : Char} (h : c ∈ numeral zeros n) :
    Text.isDigit c := by
  rcases List.mem_append.mp h with hzero | hdigit
  · rw [List.eq_of_mem_replicate hzero]
    rfl
  · exact Nat.isDigit_of_mem_toDigits (by decide) (by decide) hdigit

/-- The numerals of a number are the runs of digits that have its value. -/
theorem numeral_iff : (∃ zeros, digits = numeral zeros n)
    ↔ digits ≠ [] ∧ digits.all Text.isDigit ∧ Text.digitsValue digits = n := by
  constructor
  · rintro ⟨zeros, rfl⟩
    exact ⟨numeral_ne_nil zeros n, List.all_eq_true.mpr fun c => isDigit_of_mem_numeral,
      digitsValue_numeral zeros n⟩
  · rintro ⟨hne, hdigits, rfl⟩
    exact exists_numeral hne hdigits

theorem plus_ne_numeral (zeros n : Nat) : '+' :: digits ≠ numeral zeros n := by
  intro h
  have hplus : Text.isDigit '+' := isDigit_of_mem_numeral (h ▸ List.mem_cons_self)
  exact absurd hplus (by decide)

theorem readWidth?_eq_some_iff : readWidth? text = some n ↔ Counts text n := by
  have hdigits (digits : List Char) :
      (if digits ≠ [] ∧ digits.all Text.isDigit ∧ Text.digitsValue digits < Text.twoTo 32 then
        some (Text.digitsValue digits) else none) = some n
        ↔ n < UInt32.size ∧ ∃ zeros, digits = numeral zeros n := by
    rw [numeral_iff, Option.ite_none_right_eq_some, Option.some.injEq]
    constructor
    · rintro ⟨⟨hne, hall, hlt⟩, rfl⟩
      exact ⟨hlt, hne, hall, rfl⟩
    · rintro ⟨hlt, hne, hall, rfl⟩
      exact ⟨⟨hne, hall, hlt⟩, rfl⟩
  by_cases hplus : ∃ rest, text = '+' :: rest
  · obtain ⟨rest, rfl⟩ := hplus
    rw [readWidth?, hdigits, Counts]
    simp only [plus_ne_numeral, List.cons.injEq, true_and, false_or]
  · have hne : ∀ rest, text ≠ '+' :: rest := not_exists.mp hplus
    rw [readWidth?, hdigits, Counts]
    · simp only [hne, or_false]
    · exact hne

/-! ## Fields -/

/-- The fields that an options file can set. -/
inductive Field where
  | dialect | locale | warnings | checked | offset | indent | setback | tabs | blankBeforeLabel
  deriving Repr, DecidableEq

namespace Field

def key : Field → String
  | dialect => "version"
  | locale => "locale"
  | warnings => "warnings"
  | checked => "check_syntax"
  | offset => "offset"
  | indent => "indent"
  | setback => "label_setback"
  | tabs => "use_tabs"
  | blankBeforeLabel => "blank_line_before_label"

def kind : Field → Kind
  | dialect => .version
  | locale => .locale
  | warnings | checked | tabs | blankBeforeLabel => .boolean
  | offset | indent | setback => .width

/-- The setting that gives a field a value. -/
def setting : (f : Field) → f.kind.Value → Setting
  | dialect => .dialect
  | locale => .locale
  | warnings => .warnings
  | checked => .checked
  | offset => .offset
  | indent => .indent
  | setback => .setback
  | tabs => .tabs
  | blankBeforeLabel => .blankBeforeLabel

theorem key_injective {f g : Field} (h : f.key = g.key) : f = g := by
  revert h
  cases f <;> cases g <;> decide

end Field

/-- The value of a field. -/
def get (o : Options) : (f : Field) → f.kind.Value
  | .dialect => o.dialect
  | .locale => o.locale
  | .warnings => o.warnings
  | .checked => o.checked
  | .offset => o.layout.offset
  | .indent => o.layout.indent
  | .setback => o.layout.setback
  | .tabs => o.layout.tabs
  | .blankBeforeLabel => o.layout.blankBeforeLabel

variable {o o' : Options} {f g : Field} {problem : OptionProblem}

/-- The options have no other fields. -/
theorem get_ext (h : ∀ f, o.get f = o'.get f) : o = o' := by
  obtain ⟨dialect, locale, warnings, checked, offset, indent, setback, tabs, blank⟩ := o
  obtain ⟨dialect', locale', warnings', checked', offset', indent', setback', tabs', blank'⟩ := o'
  obtain rfl : dialect = dialect' := h .dialect
  obtain rfl : locale = locale' := h .locale
  obtain rfl : warnings = warnings' := h .warnings
  obtain rfl : checked = checked' := h .checked
  obtain rfl : offset = offset' := h .offset
  obtain rfl : indent = indent' := h .indent
  obtain rfl : setback = setback' := h .setback
  obtain rfl : tabs = tabs' := h .tabs
  obtain rfl : blank = blank' := h .blankBeforeLabel
  rfl

theorem get_set_self (v : f.kind.Value) : (o.set (f.setting v)).get f = v := by
  cases f <;> rfl

theorem get_set_of_ne (h : f ≠ g) (v : f.kind.Value) : (o.set (f.setting v)).get g = o.get g := by
  cases f <;> cases g <;> first | rfl | exact absurd rfl h

/-- A text that means a value of a field is read as that value. -/
theorem readSetting_of_means {v : f.kind.Value} (h : f.kind.Means text v) :
    readSetting f.key text = .ok (some (f.setting v)) := by
  cases f with
  | dialect =>
    have hread : readVersion text = .ok v := h
    simp only [Field.key, readSetting, hread, Except.map, Field.setting]
  | locale =>
    have hread : Locale.ofTag? (String.ofList text) = some v := h
    simp only [Field.key, readSetting, hread, Field.setting]
  | warnings | checked | tabs | blankBeforeLabel =>
    simp only [Field.key, readSetting, readBoolean?_eq_some_iff.mpr h, Field.setting]
  | offset | indent | setback =>
    simp only [Field.key, readSetting, readWidth?_eq_some_iff.mpr h, Field.setting]

/-- A text that means no value of a field is refused. -/
theorem readSetting_of_refuses (h : f.kind.Refuses f.key text problem) :
    readSetting f.key text = .error problem := by
  cases f with
  | dialect =>
    have hread : readVersion text = .error problem := h
    simp only [Field.key, readSetting, hread, Except.map]
  | locale =>
    obtain ⟨hnone, rfl⟩ := h
    have hread : Locale.ofTag? (String.ofList text) = none :=
      Option.eq_none_iff_forall_ne_some.mpr hnone
    simp only [Field.key, readSetting, hread]
  | warnings | checked | tabs | blankBeforeLabel =>
    obtain ⟨hnone, rfl⟩ := h
    have hread : readBoolean? text = none :=
      Option.eq_none_iff_forall_ne_some.mpr fun on => mt readBoolean?_eq_some_iff.mp (hnone on)
    simp only [Field.key, readSetting, hread]
  | offset | indent | setback =>
    obtain ⟨hnone, rfl⟩ := h
    have hread : readWidth? text = none :=
      Option.eq_none_iff_forall_ne_some.mpr fun n => mt readWidth?_eq_some_iff.mp (hnone n)
    simp only [Field.key, readSetting, hread]

/-- A key of no field sets nothing. -/
theorem readSetting_unknown {key : String} (h : ∀ f : Field, key ≠ f.key) :
    readSetting key text = .ok none := by
  rw [readSetting]
  · exact h .dialect
  · exact h .locale
  · exact h .warnings
  · exact h .checked
  · exact h .offset
  · exact h .indent
  · exact h .setback
  · exact h .tabs
  · exact h .blankBeforeLabel

end Options
end ScriptPress

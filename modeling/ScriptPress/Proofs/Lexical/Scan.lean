import Mathlib.Data.List.TakeWhile
import ScriptPress.Token.Literal

/-! # Where scans end

A scan that takes a token reads nothing behind it except to see that it ends there. What a token
is made of therefore decides how it is read in any other text, as long as the character behind it
could not be a part of it.
-/
namespace ScriptPress.Literal

/-- What a list of characters is checked for one by one. -/
theorem forall_chars {p : Char → Prop} [DecidablePred p] {cs : List Char}
    (h : cs.all (p ·) = true) : ∀ c ∈ cs, p c := by
  simpa using h

/-- The head of a text, if there is one, is none of a class. -/
def Ends (p : Char → Bool) (text : List Char) : Prop := ∀ c ∈ text.head?, p c = false

theorem ends_nil (p : Char → Bool) : Ends p [] := by
  intro c hc
  simp at hc

theorem ends_cons {p : Char → Bool} {c : Char} {text : List Char} :
    Ends p (c :: text) ↔ p c = false := by
  simp [Ends]

theorem Ends.mono {p q : Char → Bool} {text : List Char} (h : Ends p text)
    (hpq : ∀ c, q c = true → p c = true) : Ends q text := by
  intro c hc
  have hp := h c hc
  cases hq : q c with
  | false => rfl
  | true => simp [hpq c hq] at hp

theorem ends_dropWhile (p : Char → Bool) (text : List Char) : Ends p (text.dropWhile p) := by
  induction text with
  | nil => exact ends_nil p
  | cons c text ih =>
    rw [List.dropWhile_cons]
    split
    · exact ih
    · next h => simpa [ends_cons] using h

section Span
variable {p : Char → Bool} {body rest : List Char}

theorem takeWhile_append_of_ends (h : Ends p rest) :
    (body ++ rest).takeWhile p = body.takeWhile p := by
  induction body with
  | nil =>
    cases rest with
    | nil => rfl
    | cons c rest => simp [ends_cons.mp h]
  | cons c body ih =>
    simp only [List.cons_append, List.takeWhile_cons, ih]

theorem dropWhile_append_of_ends (h : Ends p rest) :
    (body ++ rest).dropWhile p = body.dropWhile p ++ rest := by
  induction body with
  | nil =>
    cases rest with
    | nil => rfl
    | cons c rest => simp [ends_cons.mp h]
  | cons c body ih =>
    simp only [List.cons_append, List.dropWhile_cons, ih]
    split <;> rfl

theorem takeWhile_eq_self (h : ∀ c ∈ body, p c = true) : body.takeWhile p = body := by
  rw [← List.append_nil body, List.takeWhile_append_of_pos h, List.takeWhile_nil]

theorem dropWhile_eq_nil (h : ∀ c ∈ body, p c = true) : body.dropWhile p = [] := by
  rw [← List.append_nil body, List.dropWhile_append_of_pos h, List.dropWhile_nil]

theorem all_takeWhile (p : Char → Bool) (text : List Char) :
    ∀ c ∈ text.takeWhile p, p c = true := fun _ hc => List.mem_takeWhile_imp hc

end Span

/-! ## Numbers -/

/-- A fraction: nothing, or a point and digits. -/
def IsFraction (text : List Char) : Prop :=
  text = [] ∨ ∃ digits, text = '.' :: digits ∧ ∀ c ∈ digits, Text.isDigit c = true

def isSign (c : Char) : Bool := c == '+' || c == '-'

/-- An exponent: nothing, or its mark, perhaps a sign, and at least one digit. -/
def IsExponent (text : List Char) : Prop :=
  text = [] ∨ ∃ mark signed digits, text = mark :: signed ++ digits
    ∧ (mark = 'e' ∨ mark = 'E') ∧ (signed = [] ∨ signed = ['+'] ∨ signed = ['-'])
    ∧ digits ≠ [] ∧ ∀ c ∈ digits, Text.isDigit c = true

/-- The parts of a decimal number. -/
structure Decimal (digits point power : List Char) : Prop where
  digits : ∀ c ∈ digits, Text.isDigit c = true
  point : IsFraction point
  power : IsExponent power

/-- What may not stand behind a number: a character of words, or a point where it would be the
number's own. -/
def EndsNumber (taken rest : List Char) : Prop :=
  Ends touchesNumber rest ∧ (taken.all Text.isDigit = true → Ends (· == '.') rest)

theorem touches_digit {c : Char} (h : Text.isDigit c = true) : touchesNumber c = true := by
  simp [touchesNumber, h]

theorem touches_mark {c : Char} (h : (c == 'e' || c == 'E') = true) : touchesNumber c = true := by
  have hc : c = 'e' ∨ c = 'E' := by simpa using h
  rcases hc with rfl | rfl <;> decide

theorem sign_eq (text : List Char) :
    ∃ signed rest, sign text = (signed, rest) ∧ text = signed ++ rest
      ∧ (signed = [] ∨ signed = ['+'] ∨ signed = ['-']) := by
  unfold sign
  split
  · exact ⟨['+'], _, rfl, rfl, by simp⟩
  · exact ⟨['-'], _, rfl, rfl, by simp⟩
  · exact ⟨[], _, rfl, rfl, by simp⟩

theorem sign_append {signed digits rest : List Char}
    (hs : signed = [] ∨ signed = ['+'] ∨ signed = ['-']) (hd : digits ≠ [])
    (hall : ∀ c ∈ digits, Text.isDigit c = true) :
    sign (signed ++ digits ++ rest) = (signed, digits ++ rest) := by
  rcases hs with rfl | rfl | rfl
  · cases digits with
    | nil => exact absurd rfl hd
    | cons c digits =>
      have hc := hall c (by simp)
      unfold sign
      split
      · next h => simp_all [Text.isDigit]
      · next h => simp_all [Text.isDigit]
      · rfl
  · rfl
  · rfl

theorem exponent_token {taken text t rest : List Char} (h : exponent taken text = .token t rest) :
    ∃ power, t = taken ++ power ∧ text = power ++ rest ∧ IsExponent power
      ∧ (power = [] → Ends (fun c => c == 'e' || c == 'E') rest)
      ∧ (power ≠ [] → Ends Text.isDigit rest) := by
  cases text with
  | nil =>
    simp only [exponent, Scan.token.injEq] at h
    obtain ⟨rfl, rfl⟩ := h
    exact ⟨[], by simp, rfl, Or.inl rfl, fun _ => ends_nil _, by simp⟩
  | cons mark text =>
    obtain ⟨signed, digits, hsign, rfl, hs⟩ := sign_eq text
    simp only [exponent, hsign] at h
    split at h
    · next hm =>
      split at h
      · simp at h
      · next hd =>
        simp only [Scan.token.injEq] at h
        obtain ⟨rfl, rfl⟩ := h
        refine ⟨mark :: signed ++ digits.takeWhile Text.isDigit, by simp, ?_, Or.inr ⟨mark, signed,
          digits.takeWhile Text.isDigit, rfl, by simpa using hm, hs, ?_, all_takeWhile _ _⟩,
          by simp, fun _ => ends_dropWhile _ _⟩
        · simp [List.takeWhile_append_dropWhile]
        · simpa using hd
    · next hm =>
      simp only [Scan.token.injEq] at h
      obtain ⟨rfl, rfl⟩ := h
      exact ⟨[], by simp, rfl, Or.inl rfl, fun _ => by simpa [ends_cons] using hm, by simp⟩

theorem exponent_append {taken power rest : List Char} (hp : IsExponent power)
    (hr : Ends touchesNumber rest) :
    exponent taken (power ++ rest) = .token (taken ++ power) rest := by
  rcases hp with rfl | ⟨mark, signed, digits, rfl, hm, hs, hd, hall⟩
  · cases rest with
    | nil => simp [exponent]
    | cons c rest =>
      have hc : (c == 'e' || c == 'E') = false := by
        cases hc : (c == 'e' || c == 'E') with
        | false => rfl
        | true => simp [ends_cons, touches_mark hc] at hr
      simp [exponent, hc]
  · have hmark : (mark == 'e' || mark == 'E') = true := by simpa using hm
    have hdigit : Ends Text.isDigit rest := hr.mono fun c => touches_digit
    have htake : (digits ++ rest).takeWhile Text.isDigit = digits := by
      rw [takeWhile_append_of_ends hdigit, takeWhile_eq_self hall]
    have hdrop : (digits ++ rest).dropWhile Text.isDigit = rest := by
      rw [dropWhile_append_of_ends hdigit, dropWhile_eq_nil hall, List.nil_append]
    have hempty : digits.isEmpty = false := by simpa using hd
    simp only [List.cons_append, exponent, hmark, if_true, sign_append hs hd hall, htake, hdrop,
      hempty]
    simp

theorem fraction_eq (text : List Char) :
    ∃ point rest, fraction text = (point, rest) ∧ text = point ++ rest ∧ IsFraction point
      ∧ (point = [] → Ends (· == '.') rest) ∧ (point ≠ [] → Ends Text.isDigit rest) := by
  unfold fraction
  split
  · next rest =>
    refine ⟨_, _, rfl, ?_, Or.inr ⟨_, rfl, all_takeWhile _ _⟩, by simp,
      fun _ => ends_dropWhile _ _⟩
    simp [List.takeWhile_append_dropWhile]
  · next h =>
    refine ⟨[], text, rfl, rfl, Or.inl rfl, fun _ c hc => ?_, by simp⟩
    cases text with
    | nil => simp at hc
    | cons d rest =>
      have hdc : d = c := by simpa using hc
      subst hdc
      simpa using fun hd : d = '.' => h rest (by rw [hd])

theorem fraction_append {point rest : List Char} (hp : IsFraction point)
    (hdot : point = [] → Ends (· == '.') rest) (hdigit : Ends Text.isDigit rest) :
    fraction (point ++ rest) = (point, rest) := by
  rcases hp with rfl | ⟨digits, rfl, hall⟩
  · cases rest with
    | nil => rfl
    | cons c rest =>
      have hc : c ≠ '.' := by simpa [ends_cons] using hdot rfl
      unfold fraction
      split
      · next h => exact absurd (List.cons.inj h).1 hc
      · rfl
  · simp [fraction, takeWhile_append_of_ends hdigit, dropWhile_append_of_ends hdigit,
      takeWhile_eq_self hall, dropWhile_eq_nil hall]

theorem ends_digit_append {point rest : List Char} (hp : IsFraction point)
    (hr : Ends Text.isDigit rest) : Ends Text.isDigit (point ++ rest) := by
  rcases hp with rfl | ⟨digits, rfl, _⟩
  · exact hr
  · exact ends_cons.mpr (by decide)

theorem ends_digit_power {power rest : List Char} (hp : IsExponent power)
    (hr : Ends Text.isDigit rest) : Ends Text.isDigit (power ++ rest) := by
  rcases hp with rfl | ⟨mark, signed, digits, rfl, hm, _⟩
  · exact hr
  · rcases hm with rfl | rfl <;> exact ends_cons.mpr (by decide)

theorem ends_dot_power {power rest : List Char} (hp : IsExponent power)
    (hr : power = [] → Ends (· == '.') rest) : Ends (· == '.') (power ++ rest) := by
  rcases hp with rfl | ⟨mark, signed, digits, rfl, hm, _⟩
  · exact hr rfl
  · rcases hm with rfl | rfl <;> simp [ends_cons]

theorem decimal_token {text t rest : List Char} (h : decimal text = .token t rest) :
    ∃ digits point power, t = digits ++ point ++ power ∧ text = t ++ rest
      ∧ Decimal digits point power ∧ Ends Text.isDigit rest ∧ (t = [] → Ends (· == '.') rest) := by
  obtain ⟨point, after, hfraction, hafter, hpoint, hdot, hdigit⟩ :=
    fraction_eq (text.dropWhile Text.isDigit)
  simp only [decimal, hfraction] at h
  obtain ⟨power, rfl, rfl, hpower, -, hends⟩ := exponent_token h
  refine ⟨_, point, power, rfl, ?_, ⟨all_takeWhile _ _, hpoint, hpower⟩, ?_, fun hnil => ?_⟩
  · rw [List.append_assoc, List.append_assoc, ← hafter, List.takeWhile_append_dropWhile]
  · by_cases hn : power = []
    · subst hn
      by_cases hp : point = []
      · subst hp
        have := ends_dropWhile Text.isDigit text
        rwa [hafter, List.nil_append, List.nil_append] at this
      · simpa using hdigit hp
    · exact hends hn
  · simp only [List.append_eq_nil_iff] at hnil
    obtain ⟨⟨-, hp⟩, rfl⟩ := hnil
    exact hdot hp

theorem decimal_append {digits point power rest : List Char} (h : Decimal digits point power)
    (hr : EndsNumber (digits ++ point ++ power) rest) :
    decimal (digits ++ point ++ power ++ rest) = .token (digits ++ point ++ power) rest := by
  have hrest : Ends Text.isDigit rest := hr.1.mono fun c => touches_digit
  have hpower := ends_digit_power h.power hrest
  have hpoint := ends_digit_append h.point hpower
  have htake : (digits ++ (point ++ (power ++ rest))).takeWhile Text.isDigit = digits := by
    rw [takeWhile_append_of_ends hpoint, takeWhile_eq_self h.digits]
  have hdrop : (digits ++ (point ++ (power ++ rest))).dropWhile Text.isDigit
      = point ++ (power ++ rest) := by
    rw [dropWhile_append_of_ends hpoint, dropWhile_eq_nil h.digits, List.nil_append]
  have hdot : point = [] → Ends (· == '.') (power ++ rest) := by
    rintro rfl
    refine ends_dot_power h.power ?_
    rintro rfl
    exact hr.2 (by simpa using h.digits)
  have hfraction := fraction_append h.point hdot hpower
  simp only [List.append_assoc, decimal, htake, hdrop, hfraction]
  rw [exponent_append h.power hr.1, List.append_assoc]

/-- Whether a zero begins a text and the character behind it is one of a class. -/
def opensZero (p : Char → Bool) (text : List Char) : Bool :=
  text.head? == some '0' && text.tail.head?.any p

def isHexMark (c : Char) : Bool := c == 'x' || c == 'X'

/-- A zero before more digits, none of which shows that the number is no octal one. -/
def opensOctal (text : List Char) : Bool :=
  opensZero Text.isDigit text && !(text.takeWhile Text.isDigit).any fun d => d == '8' || d == '9'

theorem opensZero_iff {p : Char → Bool} {text : List Char} :
    opensZero p text = true ↔ ∃ c rest, text = '0' :: c :: rest ∧ p c = true := by
  match text with
  | [] => simp [opensZero]
  | [d] => simp [opensZero]
  | d :: c :: rest =>
    simp only [opensZero, List.head?_cons, List.tail_cons, Option.any_some, Bool.and_eq_true,
      beq_iff_eq, Option.some.injEq, List.cons.injEq]
    constructor
    · rintro ⟨rfl, hc⟩
      exact ⟨c, rest, ⟨rfl, rfl, rfl⟩, hc⟩
    · rintro ⟨_, _, ⟨rfl, rfl, rfl⟩, hc⟩
      exact ⟨rfl, hc⟩

theorem opensZero_append {p : Char → Bool} {t rest : List Char} (hp : Ends p rest)
    (hr : Ends touchesNumber rest) : opensZero p (t ++ rest) = opensZero p t := by
  match t, rest with
  | t, [] => rw [List.append_nil]
  | [], c :: rest =>
    have hc : c ≠ '0' := by
      rintro rfl
      have := ends_cons.mp hr
      simp [touchesNumber, Text.isDigit] at this
    simp [opensZero, hc]
  | [d], c :: rest => simp [opensZero, ends_cons.mp hp]
  | d :: c :: t, rest => rfl

theorem opensOctal_append {t rest : List Char} (hr : Ends touchesNumber rest) :
    opensOctal (t ++ rest) = opensOctal t := by
  have hdigit : Ends Text.isDigit rest := hr.mono fun c => touches_digit
  rw [opensOctal, opensOctal, opensZero_append hdigit hr, takeWhile_append_of_ends hdigit]

theorem isAlphabetic_letter {c : Char}
    (h : (65 ≤ c.toNat ∧ c.toNat ≤ 90) ∨ (97 ≤ c.toNat ∧ c.toNat ≤ 122)) :
    Text.isAlphabetic c = true := by
  have hranges : Text.alphabetic = (65, 90) :: (97, 122) :: Text.alphabetic.drop 2 := rfl
  rw [Text.isAlphabetic, hranges, Text.inRanges, Text.inRanges]
  split
  · omega
  · split
    · rfl
    · split
      · omega
      · split
        · rfl
        · omega

theorem touches_hex {c : Char} (h : Text.isHexDigit c = true) : touchesNumber c = true := by
  simp only [Text.isHexDigit, Text.hexValue?] at h
  by_cases hd : Text.isDigit c = true
  · exact touches_digit hd
  · have hletter : ('a' ≤ c ∧ c ≤ 'f') ∨ ('A' ≤ c ∧ c ≤ 'F') := by
      by_cases ha : 'a' ≤ c ∧ c ≤ 'f'
      · exact Or.inl ha
      · by_cases hA : 'A' ≤ c ∧ c ≤ 'F'
        · exact Or.inr hA
        · simp [hd, ha, hA] at h
    have hcode : (65 ≤ c.toNat ∧ c.toNat ≤ 90) ∨ (97 ≤ c.toNat ∧ c.toNat ≤ 122) := by
      simp only [Char.le_def, UInt32.le_iff_toNat_le, Char.toNat_val, Char.reduceToNat] at hletter
      omega
    simp [touchesNumber, Text.isIdentStart, isAlphabetic_letter hcode]

theorem touches_hexMark {c : Char} (h : isHexMark c = true) : touchesNumber c = true := by
  have hc : c = 'x' ∨ c = 'X' := by simpa [isHexMark] using h
  rcases hc with rfl | rfl <;> decide

theorem numeral_hex {mark : Char} {rest : List Char} (h : isHexMark mark = true) :
    numeral ('0' :: mark :: rest) =
      if (rest.takeWhile Text.isHexDigit).isEmpty then
        .problem (.badNumber (String.ofList ('0' :: mark :: rest.takeWhile Text.isHexDigit)))
          ('0' :: mark :: rest.takeWhile Text.isHexDigit)
      else .token ('0' :: mark :: rest.takeWhile Text.isHexDigit)
        (rest.dropWhile Text.isHexDigit) := by
  simp only [isHexMark] at h
  simp [numeral, h]

theorem numeral_octal {text : List Char} (h : opensOctal text = true) :
    numeral text = .token (text.takeWhile Text.isDigit) (text.dropWhile Text.isDigit) := by
  have ho := h
  simp only [opensOctal, Bool.and_eq_true] at h
  obtain ⟨c, rest, rfl, hc⟩ := opensZero_iff.mp h.1
  have hx : (c == 'x' || c == 'X') = false := by
    cases hx : (c == 'x' || c == 'X') with
    | false => rfl
    | true =>
      have hcx : c = 'x' ∨ c = 'X' := by simpa using hx
      rcases hcx with rfl | rfl <;> exact absurd hc (by decide)
  have hd := h.2
  unfold numeral
  simp only [hx, hc, hd, Bool.and_true, if_true, Bool.false_eq_true, if_false]

theorem numeral_decimal {text : List Char} (hx : opensZero isHexMark text = false)
    (ho : opensOctal text = false) : numeral text = decimal text := by
  unfold numeral
  split
  · next c rest =>
    have hx' : (c == 'x' || c == 'X') = false := by simpa [opensZero, isHexMark] using hx
    have ho' : (Text.isDigit c && !(('0' :: c :: rest).takeWhile Text.isDigit).any
        fun d => d == '8' || d == '9') = false := by
      simpa [opensOctal, opensZero] using ho
    simp only [hx', ho', Bool.false_eq_true, if_false]
  · rfl

/-- The shapes of numbers: hexadecimal, octal, or decimal. -/
inductive IsNumeral : List Char → Prop
  | hex {mark digits} : isHexMark mark = true → digits ≠ [] →
      (∀ c ∈ digits, Text.isHexDigit c = true) → IsNumeral ('0' :: mark :: digits)
  | octal {t} : opensOctal t = true → (∀ d ∈ t, Text.isDigit d = true) → IsNumeral t
  | decimal {digits point power} : Decimal digits point power →
      opensZero isHexMark (digits ++ point ++ power) = false →
      opensOctal (digits ++ point ++ power) = false → IsNumeral (digits ++ point ++ power)

theorem numeral_append {t rest : List Char} (h : IsNumeral t) (hr : EndsNumber t rest) :
    numeral (t ++ rest) = .token t rest := by
  cases h with
  | hex hm hd hall =>
    have hhex : Ends Text.isHexDigit rest := hr.1.mono fun c => touches_hex
    rw [List.cons_append, List.cons_append, numeral_hex hm, takeWhile_append_of_ends hhex,
      dropWhile_append_of_ends hhex, takeWhile_eq_self hall, dropWhile_eq_nil hall]
    simp [hd]
  | octal ho hall =>
    have hdigit : Ends Text.isDigit rest := hr.1.mono fun c => touches_digit
    rw [numeral_octal (by rw [opensOctal_append hr.1, ho]), takeWhile_append_of_ends hdigit,
      dropWhile_append_of_ends hdigit, takeWhile_eq_self hall, dropWhile_eq_nil hall,
      List.nil_append]
  | decimal hparts hx ho =>
    have hmark : Ends isHexMark rest := hr.1.mono fun c => touches_hexMark
    rw [numeral_decimal (by rw [opensZero_append hmark hr.1, hx])
      (by rw [opensOctal_append hr.1, ho]), decimal_append hparts hr]

theorem numeral_token {text t rest : List Char} (h : numeral text = .token t rest)
    (hr : Ends touchesNumber rest) :
    text = t ++ rest ∧ IsNumeral t ∧ (t = [] → Ends (· == '.') rest) := by
  by_cases hx : opensZero isHexMark text = true
  · obtain ⟨mark, after, rfl, hm⟩ := opensZero_iff.mp hx
    rw [numeral_hex hm] at h
    split at h
    · simp at h
    · next hd =>
      simp only [Scan.token.injEq] at h
      obtain ⟨rfl, rfl⟩ := h
      refine ⟨by simp [List.takeWhile_append_dropWhile], .hex hm (by simpa using hd) ?_, by simp⟩
      exact all_takeWhile _ _
  · by_cases ho : opensOctal text = true
    · rw [numeral_octal ho] at h
      simp only [Scan.token.injEq] at h
      obtain ⟨rfl, rfl⟩ := h
      have heq := List.takeWhile_append_dropWhile (p := Text.isDigit) (l := text)
      have hself : opensOctal (text.takeWhile Text.isDigit) = true := by
        rw [← opensOctal_append hr, heq, ho]
      refine ⟨heq.symm, .octal hself (all_takeWhile _ _), fun hnil => ?_⟩
      rw [hnil] at hself
      cases hself
    · rw [numeral_decimal (by simpa using hx) (by simpa using ho)] at h
      obtain ⟨digits, point, power, rfl, rfl, hparts, -, hdot⟩ := decimal_token h
      have hmark : Ends isHexMark rest := hr.mono fun c => touches_hexMark
      rw [opensZero_append hmark hr] at hx
      rw [opensOctal_append hr] at ho
      exact ⟨rfl, .decimal hparts (by simpa using hx) (by simpa using ho), hdot⟩

/-- The characters of numbers. -/
theorem IsNumeral.chars {t : List Char} (h : IsNumeral t) :
    ∀ c ∈ t, touchesNumber c = true ∨ c = '.' ∨ c = '+' ∨ c = '-' := by
  intro c hc
  cases h with
  | hex hm _ hall =>
    simp only [List.mem_cons] at hc
    rcases hc with rfl | rfl | hc
    · exact Or.inl (touches_digit rfl)
    · exact Or.inl (touches_hexMark hm)
    · exact Or.inl (touches_hex (hall c hc))
  | octal _ hall => exact Or.inl (touches_digit (hall c hc))
  | decimal hparts _ _ =>
    rw [List.append_assoc] at hc
    rcases List.mem_append.mp hc with hc | hc
    · exact Or.inl (touches_digit (hparts.digits c hc))
    rcases List.mem_append.mp hc with hc | hc
    · rcases hparts.point with rfl | ⟨digits, rfl, hall⟩
      · cases hc
      · rcases List.mem_cons.mp hc with rfl | hc
        · exact Or.inr (Or.inl rfl)
        · exact Or.inl (touches_digit (hall c hc))
    · rcases hparts.power with rfl | ⟨mark, signed, digits, rfl, hm, hs, -, hall⟩
      · cases hc
      · rcases List.mem_append.mp hc with hc | hc
        · rcases List.mem_cons.mp hc with rfl | hc
          · exact Or.inl (touches_mark (by simpa using hm))
          · rcases hs with rfl | rfl | rfl <;> simp_all
        · exact Or.inl (touches_digit (hall c hc))

theorem number_token {text t rest : List Char} (h : number text = .token t rest) :
    text = t ++ rest ∧ IsNumeral t ∧ Ends touchesNumber rest ∧ (t = [] → Ends (· == '.') rest) := by
  simp only [number] at h
  cases hn : numeral text with
  | problem p taken => simp [hn] at h
  | token taken after =>
    simp only [hn] at h
    split at h
    · simp at h
    · next hafter =>
      simp only [Scan.token.injEq] at h
      obtain ⟨rfl, rfl⟩ := h
      have hends : Ends touchesNumber after := by
        intro c hc
        simpa [Option.mem_def.mp hc] using hafter
      obtain ⟨htext, hshape, hdot⟩ := numeral_token hn hends
      exact ⟨htext, hshape, hends, hdot⟩

/-- A number is read wherever its text stands and may end. -/
theorem number_append {t rest : List Char} (h : IsNumeral t) (hr : EndsNumber t rest) :
    number (t ++ rest) = .token t rest := by
  have hhead : rest.head?.any touchesNumber = false := by
    cases hh : rest.head? with
    | none => rfl
    | some c => simpa using hr.1 c (by simp [hh])
  simp [number, numeral_append h hr, hhead]

/-! ## Strings and patterns -/

/-- A scan that takes a token takes it up to a closing character, and takes the same token
whatever comes behind. -/
def Local (scan : List Char → Scan) (last : Char) (text : List Char) : Prop :=
  ∀ t rest, scan text = .token t rest →
    text = t ++ rest ∧ t.getLast? = some last ∧ ∀ other, scan (t ++ other) = .token t other

theorem cons_token {s : Scan} {c : Char} {t rest : List Char} (h : s.cons c = .token t rest) :
    ∃ t', t = c :: t' ∧ s = .token t' rest := by
  cases s with
  | problem p taken => simp [Scan.cons] at h
  | token taken after =>
    simp only [Scan.cons, Scan.token.injEq] at h
    exact ⟨taken, h.1.symm, by rw [h.2]⟩

theorem Local.cons {scan scan' : List Char → Scan} {last c : Char} {text : List Char}
    (h : Local scan' last text) (hgo : ∀ rest, scan (c :: rest) = (scan' rest).cons c) :
    Local scan last (c :: text) := by
  intro t rest ht
  rw [hgo] at ht
  obtain ⟨t', rfl, hscan⟩ := cons_token ht
  obtain ⟨rfl, hlast, hall⟩ := h _ _ hscan
  refine ⟨rfl, ?_, fun other => by rw [List.cons_append, hgo, hall, Scan.cons]⟩
  rw [List.getLast?_cons, hlast, Option.getD_some]

theorem local_of_token {scan : List Char → Scan} {c : Char} {text : List Char}
    (h : ∀ rest, scan (c :: rest) = .token [c] rest) : Local scan c (c :: text) := by
  intro t rest ht
  rw [h, Scan.token.injEq] at ht
  obtain ⟨rfl, rfl⟩ := ht
  exact ⟨rfl, rfl, h⟩

theorem local_of_problem {scan : List Char → Scan} {last : Char} {text taken : List Char}
    {p : Problem} (h : scan text = .problem p taken) : Local scan last text := by
  intro t rest ht
  rw [h] at ht
  cases ht

theorem stringFrom_local (quote : Char) (place : StringPlace) (text : List Char) :
    Local (stringFrom quote place) quote text := by
  induction text generalizing place with
  | nil => cases place <;> exact local_of_problem rfl
  | cons c text ih =>
    cases place with
    | plain feed =>
      by_cases h1 : (feed && c == '\n') = true
      · exact (ih _).cons fun rest => by rw [stringFrom, if_pos h1]
      by_cases h2 : Text.isLineBreak c = true
      · exact local_of_problem (by rw [stringFrom, if_neg h1, if_pos h2])
      by_cases h3 : (c == '\\') = true
      · exact (ih _).cons fun rest => by rw [stringFrom, if_neg h1, if_neg h2, if_pos h3]
      by_cases h4 : (c == quote) = true
      · obtain rfl : c = quote := by simpa using h4
        exact local_of_token fun rest => by
          rw [stringFrom, if_neg h1, if_neg h2, if_neg h3, if_pos h4]
      · exact (ih _).cons fun rest => by
          rw [stringFrom, if_neg h1, if_neg h2, if_neg h3, if_neg h4]
    | escape => exact (ih _).cons fun rest => rfl
    | hex more =>
      by_cases h : Text.isHexDigit c = true
      · exact (ih _).cons fun rest => if_pos h
      · exact local_of_problem (if_neg h)

/-- A string ends with the quote it begins with. -/
theorem string_token {text t rest : List Char} (h : string text = .token t rest) :
    text = t ++ rest ∧ t ≠ [] ∧ t.getLast? = text.head?
      ∧ ∀ other, string (t ++ other) = .token t other := by
  cases text with
  | nil => cases h
  | cons quote text =>
    have hlocal : Local string quote (quote :: text) :=
      (stringFrom_local quote _ text).cons fun _ => rfl
    obtain ⟨htext, hlast, hall⟩ := hlocal t rest h
    refine ⟨htext, ?_, hlast, hall⟩
    rintro rfl
    cases hlast

theorem patternFrom_local (bracketed escaped : Bool) (text : List Char) :
    Local (patternFrom bracketed escaped) '/' text := by
  induction text generalizing bracketed escaped with
  | nil => exact local_of_problem rfl
  | cons c text ih =>
    by_cases h1 : Text.isLineBreak c = true
    · exact local_of_problem (by rw [patternFrom, if_pos h1])
    by_cases h2 : escaped = true
    · exact (ih _ _).cons fun rest => by rw [patternFrom, if_neg h1, if_pos h2]
    by_cases h3 : (c == '\\') = true
    · exact (ih _ _).cons fun rest => by rw [patternFrom, if_neg h1, if_neg h2, if_pos h3]
    by_cases h4 : (c == '[') = true
    · exact (ih _ _).cons fun rest => by
        rw [patternFrom, if_neg h1, if_neg h2, if_neg h3, if_pos h4]
    by_cases h5 : (c == ']') = true
    · exact (ih _ _).cons fun rest => by
        rw [patternFrom, if_neg h1, if_neg h2, if_neg h3, if_neg h4, if_pos h5]
    by_cases h6 : (c == '/' && !bracketed) = true
    · obtain ⟨rfl, hb⟩ : c = '/' ∧ bracketed = false := by simpa using h6
      exact local_of_token fun rest => by
        rw [patternFrom, if_neg h1, if_neg h2, if_neg h3, if_neg h4, if_neg h5, if_pos h6]
    · exact (ih _ _).cons fun rest => by
        rw [patternFrom, if_neg h1, if_neg h2, if_neg h3, if_neg h4, if_neg h5, if_neg h6]

/-- A regular expression is read the same before any rest that does not go on with its flags. -/
theorem regExp_token {text t rest : List Char} (h : regExp text = .token t rest) :
    text = t ++ rest ∧ Ends Text.isIdentPart rest
      ∧ (∀ c ∈ t.getLast?, c = '/' ∨ Text.isIdentPart c = true)
      ∧ ∀ other, Ends Text.isIdentPart other → regExp (t ++ other) = .token t other := by
  simp only [regExp] at h
  cases hp : patternFrom false false text with
  | problem p taken => simp [hp] at h
  | token taken after =>
    simp only [hp, Scan.token.injEq] at h
    obtain ⟨rfl, rfl⟩ := h
    obtain ⟨htext, hlast, hall⟩ := patternFrom_local _ _ _ _ _ hp
    refine ⟨?_, ends_dropWhile _ _, fun c hc => ?_, fun other hother => ?_⟩
    · rw [List.append_assoc, List.takeWhile_append_dropWhile, htext]
    · rw [List.getLast?_append, hlast, Option.mem_def] at hc
      cases hflags : (after.takeWhile Text.isIdentPart).getLast? with
      | none =>
        rw [hflags] at hc
        exact Or.inl (Option.some.inj hc).symm
      | some b =>
        rw [hflags] at hc
        obtain rfl : b = c := Option.some.inj hc
        exact Or.inr (all_takeWhile _ _ b (List.mem_of_getLast? hflags))
    · have hflags := all_takeWhile Text.isIdentPart after
      rw [List.append_assoc, regExp, hall]
      dsimp only
      rw [takeWhile_append_of_ends hother, dropWhile_append_of_ends hother,
        takeWhile_eq_self hflags, dropWhile_eq_nil hflags, List.nil_append]

theorem regExp_ne_nil {text t rest : List Char} (h : regExp text = .token t rest) : t ≠ [] := by
  rintro rfl
  exact absurd ((regExp_token h).2.2.2 [] (ends_nil _)) (by decide)

/-! ## Words -/

/-- What may not stand behind a word. -/
def wordGoesOn (c : Char) : Bool := Text.isIdentPart c || c == '\\'

theorem not_identPart_backslash : Text.isIdentPart '\\' = false := by decide

theorem wordFrom_plain {first : Bool} {c : Char} {text : List Char}
    (h : Text.isIdentPart c = true) :
    wordFrom first (c :: text) = (wordFrom false text).map fun w =>
      { w with name := c :: w.name, taken := c :: w.taken } := by
  have hc : c ≠ '\\' := by
    rintro rfl
    simp [not_identPart_backslash] at h
  rw [wordFrom.eq_def]
  split
  · next heq => exact absurd (List.cons.inj heq).1 hc
  · next heq => exact absurd (List.cons.inj heq).1 hc
  · next heq =>
    obtain ⟨rfl, rfl⟩ := List.cons.inj heq
    rw [if_pos h]
  · next heq => cases heq

theorem wordFrom_end {first : Bool} {rest : List Char} (h : Ends wordGoesOn rest) :
    wordFrom first rest = some ⟨[], false, [], rest⟩ := by
  cases rest with
  | nil => rw [wordFrom.eq_def]
  | cons c rest =>
    have hc : Text.isIdentPart c = false ∧ (c == '\\') = false := by
      simpa [wordGoesOn] using ends_cons.mp h
    have hne : c ≠ '\\' := by simpa using hc.2
    rw [wordFrom.eq_def]
    split
    · next heq => exact absurd (List.cons.inj heq).1 hne
    · next heq => exact absurd (List.cons.inj heq).1 hne
    · next heq =>
      obtain ⟨rfl, rfl⟩ := List.cons.inj heq
      simp [hc.1]
    · next heq => cases heq

/-- What a reading of a word tells: how it splits the text, that it reads the same before any
rest that does not go on with the word, and which characters its name consists of. -/
structure IsWord (first : Bool) (text : List Char) (w : Word) : Prop where
  splits : text = w.taken ++ w.rest
  ends : Ends wordGoesOn w.rest
  moves : ∀ other, Ends wordGoesOn other →
    wordFrom first (w.taken ++ other) = some { w with rest := other }
  name : ∀ c ∈ w.name, Text.isIdentPart c = true
  chars : ∀ c ∈ w.taken, Text.isIdentPart c = true ∨ touchesNumber c = true
  short : w.taken = [] → w.name = []
  start : first = true → (∃ c ∈ text.head?, c = '\\' ∨ Text.isIdentStart c = true) →
    ∃ c ∈ w.name.head?, Text.isIdentStart c = true

theorem identPart_of_start {c : Char} (h : Text.isIdentStart c = true) :
    Text.isIdentPart c = true := by simp [Text.isIdentPart, h]

theorem hexNumber_digits {digits : List Char} {n m : Nat}
    (h : digits.foldlM (fun n c => (Text.hexValue? c).map (16 * n + ·)) n = some m) :
    ∀ c ∈ digits, Text.isHexDigit c = true := by
  induction digits generalizing n with
  | nil => simp
  | cons c digits ih =>
    rw [List.foldlM_cons] at h
    obtain ⟨k, hk, h⟩ := Option.bind_eq_some_iff.mp h
    obtain ⟨v, hv, -⟩ := Option.map_eq_some_iff.mp hk
    intro e he
    rcases List.mem_cons.mp he with rfl | he
    · rw [Text.isHexDigit, hv, Option.isSome_some]
    · exact ih h e he

theorem escapedChar_digits {a b c d ch : Char} (h : escapedChar? a b c d = some ch) :
    ∀ e ∈ [a, b, c, d], Text.isHexDigit e = true := by
  cases hn : Text.hexNumber? [a, b, c, d] with
  | none => simp [escapedChar?, hn] at h
  | some n => exact hexNumber_digits hn

theorem wordFrom_isWord {first : Bool} {text : List Char} {w : Word}
    (h : wordFrom first text = some w) : IsWord first text w := by
  induction first, text using wordFrom.induct generalizing w with
  | case1 first a b c d rest hnone =>
    rw [wordFrom.eq_def] at h
    simp [hnone] at h
  | case2 first a b c d rest ch hsome hok ih =>
    rw [wordFrom.eq_def] at h
    simp only [hsome, hok, if_true] at h
    obtain ⟨v, hv, rfl⟩ := Option.map_eq_some_iff.mp h
    have hw := ih hv
    have hpart : Text.isIdentPart ch = true := by
      cases first with
      | true => exact identPart_of_start (by simpa using hok)
      | false => simpa using hok
    refine ⟨?_, hw.ends, fun other hother => ?_, ?_, fun e he => ?_, by simp, fun hf _ => ?_⟩
    · simp [← hw.splits]
    · rw [wordFrom.eq_def]
      simp [hsome, hok, hw.moves other hother]
    · simpa [hpart] using hw.name
    · have hdigits := escapedChar_digits hsome
      have hu : touchesNumber 'u' = true := by decide
      simp only [List.mem_cons] at he
      rcases he with rfl | rfl | rfl | rfl | rfl | rfl | he
      · exact Or.inr rfl
      · exact Or.inr hu
      · exact Or.inr (touches_hex (hdigits _ (by simp)))
      · exact Or.inr (touches_hex (hdigits _ (by simp)))
      · exact Or.inr (touches_hex (hdigits _ (by simp)))
      · exact Or.inr (touches_hex (hdigits _ (by simp)))
      · exact hw.chars e he
    · subst hf
      exact ⟨ch, rfl, by simpa using hok⟩
  | case3 first a b c d rest ch hsome hno =>
    rw [wordFrom.eq_def] at h
    simp only [hsome, hno] at h
    cases h
  | case4 first rest hno =>
    rw [wordFrom.eq_def] at h
    split at h
    · next heq => exact absurd (List.cons.inj heq).2 (hno _ _ _ _ _)
    · cases h
    · next hb heq => exact (hb (List.cons.inj heq).1.symm).elim
    · next heq => cases heq
  | case5 first c rest hu hb hpart ih =>
    rw [wordFrom_plain hpart] at h
    obtain ⟨v, hv, rfl⟩ := Option.map_eq_some_iff.mp h
    have hw := ih hv
    refine ⟨?_, hw.ends, fun other hother => ?_, ?_, fun e he => ?_, by simp, fun _ hstart => ?_⟩
    · simp [← hw.splits]
    · rw [List.cons_append, wordFrom_plain hpart, hw.moves other hother]
      rfl
    · simpa [hpart] using hw.name
    · rcases List.mem_cons.mp he with rfl | he
      · exact Or.inl hpart
      · exact hw.chars e he
    · obtain ⟨b, hbc, hstart⟩ := hstart
      obtain rfl : c = b := by simpa using hbc
      exact ⟨c, rfl, hstart.resolve_left hb⟩
  | case6 first c rest hu hb hpart =>
    have hends : Ends wordGoesOn (c :: rest) := by
      rw [ends_cons]
      simp only [wordGoesOn, hpart, Bool.false_or, beq_eq_false_iff_ne]
      exact hb
    rw [wordFrom_end hends, Option.some.injEq] at h
    subst h
    refine ⟨rfl, hends, fun other hother => by simpa using wordFrom_end hother, by simp, by simp,
      fun _ => rfl, fun _ hstart => ?_⟩
    obtain ⟨b, hbc, hstart⟩ := hstart
    obtain rfl : c = b := by simpa using hbc
    exact absurd (identPart_of_start (hstart.resolve_left hb)) hpart
  | case7 first =>
    rw [wordFrom_end (ends_nil _), Option.some.injEq] at h
    subst h
    exact ⟨rfl, ends_nil _, fun other hother => by simpa using wordFrom_end hother, by simp,
      by simp, fun _ => rfl, by simp⟩

/-- Characters of words are a word. -/
theorem wordFrom_all (first : Bool) {name rest : List Char}
    (h : ∀ c ∈ name, Text.isIdentPart c = true) (hr : Ends wordGoesOn rest) :
    wordFrom first (name ++ rest) = some ⟨name, false, name, rest⟩ := by
  induction name generalizing first with
  | nil => simpa using wordFrom_end hr
  | cons c name ih =>
    rw [List.cons_append, wordFrom_plain (h c (by simp)), ih false fun d hd => h d (by simp [hd])]
    rfl

end ScriptPress.Literal

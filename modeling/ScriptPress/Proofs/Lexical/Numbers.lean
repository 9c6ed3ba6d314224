import ScriptPress.Proofs.Lexical.Moving

/-! # The longest number

The numbers of the language, form by form, and the longest of them that a text begins with. The
scan of a number chooses its form at the first characters and never goes back. It still takes the
longest number, and it fails just where a character behind that number may not touch it.
-/
namespace ScriptPress

namespace Literal

/-! ## The language of numbers -/

/-- The digits that a decimal number can have before its point. Behind a zero an 8 or a 9 shows that
the number is not octal. -/
inductive IsWhole : List Char → Prop
  | zero : IsWhole ['0']
  | legacy {digits} : (∀ c ∈ digits, Text.isDigit c = true) → '8' ∈ digits ∨ '9' ∈ digits →
      IsWhole ('0' :: digits)
  | plain {c digits} : c ≠ '0' → (∀ d ∈ c :: digits, Text.isDigit d = true) → IsWhole (c :: digits)

/-- The numbers: hexadecimal and octal ones, decimal ones with digits before the point, and those
that begin with the point. -/
inductive IsNumber : List Char → Prop
  | hex {mark digits} : mark = 'x' ∨ mark = 'X' → digits ≠ [] →
      (∀ c ∈ digits, Text.isHexDigit c = true) → IsNumber ('0' :: mark :: digits)
  | octal {digits} : digits ≠ [] →
      (∀ c ∈ digits, Text.isDigit c = true ∧ c ≠ '8' ∧ c ≠ '9') → IsNumber ('0' :: digits)
  | whole {digits point power} : IsWhole digits → IsFraction point → IsExponent power →
      IsNumber (digits ++ point ++ power)
  | point {digits power} : digits ≠ [] → (∀ c ∈ digits, Text.isDigit c = true) →
      IsExponent power → IsNumber ('.' :: digits ++ power)

/-- The longest number that a text begins with. -/
structure IsLongest (t text : List Char) : Prop where
  number : IsNumber t
  leads : t <+: text
  longest : ∀ u, IsNumber u → u <+: text → u.length ≤ t.length

/-- A character that cannot stand behind a number, digits apart. -/
def opensWordAfter (c : Char) : Bool := Text.isIdentStart c || c == '\\'

theorem hexMark_of {mark : Char} (h : mark = 'x' ∨ mark = 'X') : isHexMark mark = true := by
  simpa [isHexMark] using h

theorem of_hexMark {mark : Char} (h : isHexMark mark = true) : mark = 'x' ∨ mark = 'X' := by
  simpa [isHexMark] using h

theorem not_hexMark_of_digit {c : Char} (h : Text.isDigit c = true) : isHexMark c = false := by
  by_contra hc
  rcases of_hexMark (by simpa using hc) with rfl | rfl <;> exact absurd h (by decide)

theorem isHexDigit_of_digit {c : Char} (h : Text.isDigit c = true) : Text.isHexDigit c = true := by
  simp [Text.isHexDigit, Text.hexValue?, h]

section Whole
variable {whole rest : List Char}

theorem IsWhole.digits (h : IsWhole whole) : ∀ c ∈ whole, Text.isDigit c = true := by
  cases h with
  | zero => simp [Text.isDigit]
  | legacy hall _ => exact List.forall_mem_cons.mpr ⟨rfl, hall⟩
  | plain _ hall => exact hall

/-- The digits of a decimal number open no hexadecimal one. -/
theorem IsWhole.not_hex (h : IsWhole whole) (hr : Ends isHexMark rest) :
    opensZero isHexMark (whole ++ rest) = false := by
  cases h with
  | zero =>
    cases rest with
    | nil => rfl
    | cons c rest => simpa [opensZero] using ends_cons.mp hr
  | @legacy digits hall hmark =>
    cases digits with
    | nil => simp at hmark
    | cons c digits => simpa [opensZero] using not_hexMark_of_digit (hall c (by simp))
  | plain hzero _ => simp [opensZero, hzero]

/-- The digits of a decimal number are not those of an octal one. -/
theorem IsWhole.not_octal (h : IsWhole whole) (hr : Ends Text.isDigit rest) :
    opensOctal (whole ++ rest) = false := by
  have htake : (whole ++ rest).takeWhile Text.isDigit = whole := by
    rw [takeWhile_append_of_ends hr, takeWhile_eq_self h.digits]
  rw [opensOctal, htake]
  cases h with
  | zero =>
    cases rest with
    | nil => rfl
    | cons c rest => simp [opensZero, ends_cons.mp hr]
  | legacy _ hmark =>
    have hany : ('0' :: _).any (fun d => d == '8' || d == '9') = true :=
      List.any_eq_true.mpr (hmark.elim (fun h => ⟨'8', List.mem_cons_of_mem _ h, rfl⟩)
        fun h => ⟨'9', List.mem_cons_of_mem _ h, rfl⟩)
    rw [hany, Bool.not_true, Bool.and_false]
  | plain hzero _ => simp [opensZero, hzero]

end Whole

/-- What stands behind the digits of a decimal number goes on with none of its digits and with no
mark of a hexadecimal one. -/
theorem ends_tail {point power : List Char} (hp : IsFraction point) (he : IsExponent power) :
    Ends Text.isDigit (point ++ power) ∧ Ends isHexMark (point ++ power) := by
  rcases hp with rfl | ⟨digits, rfl, -⟩
  · rcases he with rfl | ⟨mark, signed, digits, rfl, hm, -⟩
    · exact ⟨ends_nil _, ends_nil _⟩
    · rcases hm with rfl | rfl <;> exact ⟨ends_cons.mpr (by decide), ends_cons.mpr (by decide)⟩
  · exact ⟨ends_cons.mpr (by decide), ends_cons.mpr (by decide)⟩

/-! ## Numbers and numerals -/

section
variable {t rest : List Char}

theorem opensOctal_of {digits : List Char} (hne : digits ≠ [])
    (hall : ∀ c ∈ digits, Text.isDigit c = true ∧ c ≠ '8' ∧ c ≠ '9') :
    opensOctal ('0' :: digits) = true ∧ ∀ c ∈ '0' :: digits, Text.isDigit c = true := by
  have hdigits : ∀ c ∈ '0' :: digits, Text.isDigit c = true :=
    List.forall_mem_cons.mpr ⟨rfl, fun c hc => (hall c hc).1⟩
  refine ⟨?_, hdigits⟩
  rw [opensOctal, takeWhile_eq_self hdigits]
  have hany : ('0' :: digits).any (fun d => d == '8' || d == '9') = false := by
    simpa using fun c hc => (hall c hc).2
  cases digits with
  | nil => exact absurd rfl hne
  | cons c digits => rw [hany]; simp [opensZero, (hall c (by simp)).1]

/-- A number is read as a numeral. -/
theorem IsNumber.isNumeral (h : IsNumber t) : IsNumeral t := by
  cases h with
  | hex hm hne hall => exact .hex (hexMark_of hm) hne hall
  | octal hne hall =>
    obtain ⟨hopens, hdigits⟩ := opensOctal_of hne hall
    exact .octal hopens hdigits
  | @whole digits point power hw hp he =>
    obtain ⟨hdigit, hmark⟩ := ends_tail hp he
    refine .decimal ⟨hw.digits, hp, he⟩ ?_ ?_
    · rw [List.append_assoc]
      exact hw.not_hex hmark
    · rw [List.append_assoc]
      exact hw.not_octal hdigit
  | @point digits power hne hall he =>
    have hparts : Decimal [] ('.' :: digits) power := ⟨by simp, .inr ⟨digits, rfl, hall⟩, he⟩
    exact .decimal hparts rfl rfl

theorem isWhole_of {c : Char} {digits tail : List Char}
    (hall : ∀ d ∈ c :: digits, Text.isDigit d = true) (htail : Ends Text.isDigit tail)
    (ho : opensOctal (c :: digits ++ tail) = false) : IsWhole (c :: digits) := by
  by_cases hc : c = '0'
  · subst hc
    cases digits with
    | nil => exact .zero
    | cons d digits =>
      have hd : Text.isDigit d = true := hall d (by simp)
      rw [opensOctal, takeWhile_append_of_ends htail, takeWhile_eq_self hall] at ho
      have hmark : '8' ∈ d :: digits ∨ '9' ∈ d :: digits := by
        simp only [opensZero, List.cons_append, List.head?_cons, List.tail_cons, Option.any_some, hd,
          beq_self_eq_true, Bool.and_self, Bool.true_and, Bool.not_eq_false', List.any_eq_true,
          Bool.or_eq_true, beq_iff_eq] at ho
        obtain ⟨b, hb, rfl | rfl⟩ := ho
        · exact .inl (by simpa using hb)
        · exact .inr (by simpa using hb)
      exact .legacy (fun b hb => hall b (List.mem_cons_of_mem _ hb)) hmark
  · exact .plain hc hall

/-- A numeral at the head of a text that opens a number is a number. -/
theorem IsNumeral.isNumber (h : IsNumeral t) (hopens : Lexer.opensNumber (t ++ rest) = true)
    (hdigit : Ends Text.isDigit rest) (hdot : t = [] → Ends (· == '.') rest) : IsNumber t := by
  cases h with
  | hex hm hne hall => exact .hex (of_hexMark hm) hne hall
  | octal ho hall =>
    have hmarks := ho
    rw [opensOctal, takeWhile_eq_self hall] at hmarks
    simp only [Bool.and_eq_true, Bool.not_eq_true', List.any_eq_false] at hmarks
    obtain ⟨c, digits, rfl, -⟩ := opensZero_iff.mp hmarks.1
    refine .octal (by simp) fun b hb => ⟨hall b (List.mem_cons_of_mem _ hb), ?_⟩
    simpa using hmarks.2 b (List.mem_cons_of_mem _ hb)
  | @decimal digits point power hparts hx ho =>
    obtain ⟨hall, hp, he⟩ := hparts
    cases digits with
    | cons c digits =>
      rw [List.append_assoc] at ho
      exact .whole (isWhole_of hall (ends_tail hp he).1 ho) hp he
    | nil =>
      -- Without digits there has to be a point with digits behind it.
      have hafter : Ends Text.isDigit (power ++ rest) := ends_digit_power he hdigit
      rcases hp with rfl | ⟨digits, rfl, hpoint⟩
      · exfalso
        rcases he with rfl | ⟨mark, signed, digits, rfl, hm, -⟩
        · have hd := hdot rfl
          cases rest with
          | nil => cases hopens
          | cons c rest =>
            have hc : Text.isDigit c = false := ends_cons.mp hdigit
            have hc' : (c == '.') = false := hd c rfl
            simp_all [Lexer.opensNumber]
        · rcases hm with rfl | rfl <;> cases hopens
      · refine .point ?_ hpoint he
        rintro rfl
        cases hrest : power ++ rest with
        | nil => simp_all [Lexer.opensNumber, Text.isDigit]
        | cons c after =>
          rw [hrest] at hafter
          have hc : Text.isDigit c = false := ends_cons.mp hafter
          simp_all [Lexer.opensNumber, Text.isDigit]

theorem IsNumeral.all_of_octal (h : IsNumeral t) (ho : opensOctal t = true) :
    ∀ d ∈ t, Text.isDigit d = true := by
  cases h with
  | octal _ hall => exact hall
  | hex hm _ _ =>
    obtain ⟨c, digits, heq, hc⟩ := opensZero_iff.mp (Bool.and_eq_true_iff.mp ho).1
    obtain ⟨rfl, -⟩ := List.cons.inj (List.cons.inj heq).2
    rw [not_hexMark_of_digit hc] at hm
    cases hm
  | decimal _ _ hno =>
    rw [hno] at ho
    cases ho

theorem forall_concat {p : Char → Prop} {c : Char} {digits : List Char} (hall : ∀ d ∈ digits, p d)
    (hc : p c) : ∀ d ∈ digits ++ [c], p d := by
  intro d hd
  rcases List.mem_append.mp hd with hd | hd
  · exact hall d hd
  · rw [List.mem_singleton.mp hd]
    exact hc

section Concat
variable {c : Char} (hc : Text.isDigit c = true)
include hc

theorem exponent_concat {power : List Char} (hne : power ≠ []) (h : IsExponent power) :
    IsExponent (power ++ [c]) := by
  rcases h with rfl | ⟨mark, signed, digits, rfl, hm, hs, -, hall⟩
  · exact absurd rfl hne
  · exact .inr ⟨mark, signed, digits ++ [c], by simp, hm, hs, by simp, forall_concat hall hc⟩

/-- An octal number turns decimal at an 8 or a 9. -/
theorem octal_concat {digits : List Char}
    (hall : ∀ d ∈ digits, Text.isDigit d = true ∧ d ≠ '8' ∧ d ≠ '9') :
    IsNumber ('0' :: digits ++ [c]) := by
  by_cases hmark : c = '8' ∨ c = '9'
  · have hw : IsWhole ('0' :: (digits ++ [c])) :=
      .legacy (forall_concat (fun d hd => (hall d hd).1) hc) (by rcases hmark with rfl | rfl <;> simp)
    simpa using IsNumber.whole hw (.inl rfl) (.inl rfl)
  · exact .octal (by simp) (forall_concat hall ⟨hc, not_or.mp hmark⟩)

theorem whole_concat {digits : List Char} (h : IsWhole digits) : IsNumber (digits ++ [c]) := by
  cases h with
  | zero => exact octal_concat hc fun d hd => absurd hd (List.not_mem_nil)
  | @legacy digits hall hmark =>
    have hw : IsWhole ('0' :: (digits ++ [c])) :=
      .legacy (forall_concat hall hc) (hmark.imp (List.mem_append_left _) (List.mem_append_left _))
    simpa using IsNumber.whole hw (.inl rfl) (.inl rfl)
  | @plain b digits hb hall =>
    have hw : IsWhole (b :: (digits ++ [c])) := .plain hb (forall_concat hall hc)
    simpa using IsNumber.whole hw (.inl rfl) (.inl rfl)

/-- A number goes on with every digit. -/
theorem IsNumber.concat (h : IsNumber t) : IsNumber (t ++ [c]) := by
  cases h with
  | @hex mark digits hm hne hall =>
    exact .hex hm (by simp) (forall_concat hall (isHexDigit_of_digit hc))
  | octal hne hall => exact octal_concat hc hall
  | @whole digits point power hw hp he =>
    by_cases hne : power = []
    · subst hne
      rw [List.append_nil]
      rcases hp with rfl | ⟨more, rfl, hmore⟩
      · rw [List.append_nil]
        exact whole_concat hc hw
      · have hpoint : IsFraction ('.' :: (more ++ [c])) := .inr ⟨_, rfl, forall_concat hmore hc⟩
        simpa using IsNumber.whole hw hpoint (.inl rfl)
    · rw [List.append_assoc]
      exact .whole hw hp (exponent_concat hc hne he)
  | @point digits power hne hall he =>
    by_cases hpower : power = []
    · subst hpower
      have hpoint : IsNumber ('.' :: (digits ++ [c]) ++ []) :=
        .point (by simp) (forall_concat hall hc) (.inl rfl)
      simpa using hpoint
    · rw [List.append_assoc]
      exact .point hne hall (exponent_concat hc hpower he)

end Concat

/-- A number of digits only is octal or goes on with a point. -/
theorem IsNumber.octal_or_point (h : IsNumber t) (hall : t.all Text.isDigit = true) :
    opensOctal t = true ∨ IsNumber (t ++ ['.']) := by
  have hmem : ∀ c ∈ t, Text.isDigit c = true := by simpa using hall
  cases h with
  | hex hm _ _ =>
    rcases hm with rfl | rfl
    · exact absurd (hmem 'x' (by simp)) (by decide)
    · exact absurd (hmem 'X' (by simp)) (by decide)
  | octal hne hoctal => exact .inl (opensOctal_of hne hoctal).1
  | @whole digits point power hw hp he =>
    have hpoint : point = [] := by
      rcases hp with rfl | ⟨more, rfl, -⟩
      · rfl
      · exact absurd (hmem '.' (by simp)) (by decide)
    have hpower : power = [] := by
      rcases he with rfl | ⟨mark, signed, more, rfl, rfl | rfl, -⟩
      · rfl
      · exact absurd (hmem 'e' (by simp)) (by decide)
      · exact absurd (hmem 'E' (by simp)) (by decide)
    subst hpoint hpower
    have hdot : IsFraction ['.'] := .inr ⟨[], rfl, by simp⟩
    exact .inr (by simpa using IsNumber.whole hw hdot (.inl rfl))
  | point _ _ _ => exact absurd (hmem '.' (by simp)) (by decide)

end

/-! ## What a scan covers

A scan takes at least as much as any number at the head of its text. -/

section Covers
variable {taken t rest r : List Char}

theorem exponent_covers {power : List Char} (hp : IsExponent power)
    (h : exponent taken (power ++ r) = .token t rest) : (taken ++ power).length ≤ t.length := by
  rcases hp with rfl | ⟨mark, signed, digits, rfl, hm, hs, hd, hall⟩
  · obtain ⟨power, rfl, -⟩ := exponent_token h
    simp
  · have hmark : (mark == 'e' || mark == 'E') = true := by simpa using hm
    have htake : (digits ++ r).takeWhile Text.isDigit = digits ++ r.takeWhile Text.isDigit :=
      List.takeWhile_append_of_pos hall
    have hne : (digits ++ r.takeWhile Text.isDigit).isEmpty = false := by simp [hd]
    simp only [List.cons_append, exponent, hmark, if_true, sign_append hs hd hall, htake, hne,
      Bool.false_eq_true, if_false, Scan.token.injEq] at h
    obtain ⟨rfl, -⟩ := h
    simp only [List.length_append, List.length_cons]
    omega

theorem decimal_covers {digits point power : List Char} (hparts : Decimal digits point power)
    (h : decimal (digits ++ point ++ power ++ r) = .token t rest) :
    (digits ++ point ++ power).length ≤ t.length := by
  obtain ⟨hall, hp, he⟩ := hparts
  by_cases hpower : power = []
  · subst hpower
    rcases hp with rfl | ⟨more, rfl, hmore⟩
    · have htake : (digits ++ r).takeWhile Text.isDigit = digits ++ r.takeWhile Text.isDigit :=
        List.takeWhile_append_of_pos hall
      simp only [List.append_nil, decimal, htake] at h ⊢
      obtain ⟨power, rfl, -⟩ := exponent_token h
      simp only [List.length_append]
      omega
    · have hends : Ends Text.isDigit ('.' :: (more ++ r)) := ends_cons.mpr (by decide)
      have htake : (more ++ r).takeWhile Text.isDigit = more ++ r.takeWhile Text.isDigit :=
        List.takeWhile_append_of_pos hmore
      simp only [List.append_nil, List.append_assoc, List.cons_append, decimal, fraction,
        takeWhile_append_of_ends hends, takeWhile_eq_self hall, dropWhile_append_of_ends hends,
        dropWhile_eq_nil hall, List.nil_append, htake] at h ⊢
      obtain ⟨power, rfl, -⟩ := exponent_token h
      simp only [List.length_append, List.length_cons]
      omega
  · -- An exponent shows where the digits and the fraction end.
    have hmark : Ends Text.isDigit (power ++ r) ∧ Ends (· == '.') (power ++ r) := by
      rcases he with rfl | ⟨mark, signed, more, rfl, rfl | rfl, -⟩
      · exact absurd rfl hpower
      · exact ⟨ends_cons.mpr (by decide), ends_cons.mpr (by decide)⟩
      · exact ⟨ends_cons.mpr (by decide), ends_cons.mpr (by decide)⟩
    have hpoint := ends_digit_append hp hmark.1
    simp only [List.append_assoc, decimal, takeWhile_append_of_ends hpoint, takeWhile_eq_self hall,
      dropWhile_append_of_ends hpoint, dropWhile_eq_nil hall, List.nil_append,
      fraction_append hp (fun _ => hmark.2) hmark.1] at h ⊢
    simpa using exponent_covers he h

theorem digits_covers {u : List Char} (hall : ∀ c ∈ u, Text.isDigit c = true)
    (h : numeral (u ++ r) = .token t rest) : u.length ≤ t.length := by
  have htake : (u ++ r).takeWhile Text.isDigit = u ++ r.takeWhile Text.isDigit :=
    List.takeWhile_append_of_pos hall
  by_cases hx : opensZero isHexMark (u ++ r) = true
  · obtain ⟨mark, after, htext, hm⟩ := opensZero_iff.mp hx
    rw [htext, numeral_hex hm] at h
    have htwo : 2 ≤ t.length := by
      split at h
      · simp at h
      · simp only [Scan.token.injEq] at h
        obtain ⟨rfl, -⟩ := h
        simp
    match u with
    | [] => simp
    | [c] => simp only [List.length_singleton]; omega
    | c :: d :: u =>
      obtain rfl : d = mark := by simp_all
      have hd := not_hexMark_of_digit (hall d (by simp))
      rw [hm] at hd
      cases hd
  · by_cases ho : opensOctal (u ++ r) = true
    · rw [numeral_octal ho, htake] at h
      simp only [Scan.token.injEq] at h
      obtain ⟨rfl, -⟩ := h
      simp
    · rw [numeral_decimal (by simpa using hx) (by simpa using ho)] at h
      have hparts : Decimal u [] [] := ⟨hall, .inl rfl, .inl rfl⟩
      simpa using decimal_covers hparts (by simpa using h)

theorem IsNumber.covers {u : List Char} (hu : IsNumber u)
    (h : numeral (u ++ r) = .token t rest) : u.length ≤ t.length := by
  cases hu with
  | @hex mark digits hm hne hall =>
    have htake : (digits ++ r).takeWhile Text.isHexDigit = digits ++ r.takeWhile Text.isHexDigit :=
      List.takeWhile_append_of_pos hall
    have hempty : (digits ++ r.takeWhile Text.isHexDigit).isEmpty = false := by simp [hne]
    rw [List.cons_append, List.cons_append, numeral_hex (hexMark_of hm), htake, hempty,
      if_neg (by simp)] at h
    simp only [Scan.token.injEq] at h
    obtain ⟨rfl, -⟩ := h
    simp
  | octal hne hall => exact digits_covers (opensOctal_of hne hall).2 h
  | @whole digits point power hw hp he =>
    by_cases htail : point ++ power = []
    · obtain ⟨rfl, rfl⟩ := List.append_eq_nil_iff.mp htail
      simp only [List.append_nil] at h ⊢
      exact digits_covers hw.digits h
    · -- The character behind the digits is known, so the form is.
      obtain ⟨hdigit, hmark⟩ := ends_tail hp he
      have hmore : ∀ {p}, Ends p (point ++ power) → Ends p (point ++ power ++ r) := by
        intro p hends
        cases hboth : point ++ power with
        | nil => exact absurd hboth htail
        | cons b tail =>
          rw [hboth] at hends
          exact ends_cons.mpr (ends_cons.mp hends)
      rw [List.append_assoc digits, List.append_assoc digits, numeral_decimal
        (hw.not_hex (hmore hmark)) (hw.not_octal (hmore hdigit))] at h
      exact decimal_covers ⟨hw.digits, hp, he⟩ (by simpa using h)
  | @point digits power hne hall he =>
    have hparts : Decimal [] ('.' :: digits) power := ⟨by simp, .inr ⟨digits, rfl, hall⟩, he⟩
    exact decimal_covers hparts h

end Covers

/-! ## Reading a number -/

section
variable {text t rest : List Char}

theorem numeral_of_number (h : number text = .token t rest) : numeral text = .token t rest := by
  rw [number] at h
  split at h
  · next hn =>
    split at h
    · cases h
    · rw [hn, h]
  · next hn => rw [h] at hn; exact absurd rfl (hn t rest)

theorem number_of_numeral (h : numeral text = .token t rest) (hr : Ends touchesNumber rest) :
    number text = .token t rest := by
  have hhead : rest.head?.any touchesNumber = false := by
    cases hh : rest.head? with
    | none => rfl
    | some c => simpa using hr c (by simp [hh])
  simp [number, h, hhead]

theorem IsLongest.ends (h : IsLongest t (t ++ rest)) : Ends Text.isDigit rest := by
  cases rest with
  | nil => exact ends_nil _
  | cons c rest =>
    refine ends_cons.mpr ?_
    by_contra hc
    have hlong := h.longest _ (h.number.concat (by simpa using hc)) ⟨rest, by simp⟩
    rw [List.length_append, List.length_singleton] at hlong
    omega

/-- The scan of a number takes the longest number at the head of its text, if it may end there. -/
theorem number_token_iff (hopens : Lexer.opensNumber text = true) :
    number text = .token t rest ↔
      text = t ++ rest ∧ IsLongest t text ∧ Ends opensWordAfter rest := by
  constructor
  · intro h
    obtain ⟨rfl, hshape, htouch, hdot⟩ := number_token h
    have hdigit : Ends Text.isDigit rest := htouch.mono fun c => touches_digit
    refine ⟨rfl, ⟨hshape.isNumber hopens hdigit hdot, List.prefix_append _ _, ?_⟩, ?_⟩
    · rintro u hu ⟨r, hr⟩
      rw [← hr] at h
      exact hu.covers (numeral_of_number h)
    · refine htouch.mono fun c hc => ?_
      simp only [opensWordAfter, Bool.or_eq_true] at hc
      rcases hc with hc | hc <;> simp [touchesNumber, hc]
  · rintro ⟨rfl, hlong, hword⟩
    have htouch : Ends touchesNumber rest := by
      intro c hc
      have hd := hlong.ends c hc
      have hw := hword c hc
      simp only [opensWordAfter, Bool.or_eq_false_iff] at hw
      simp [touchesNumber, hd, hw]
    by_cases ho : opensOctal t = true
    · -- An octal number takes no point, so a point may follow it.
      have hdigit := hlong.ends
      have hall := hlong.number.isNumeral.all_of_octal ho
      refine number_of_numeral ?_ htouch
      rw [numeral_octal (by rw [opensOctal_append htouch, ho]), takeWhile_append_of_ends hdigit,
        dropWhile_append_of_ends hdigit, takeWhile_eq_self hall, dropWhile_eq_nil hall,
        List.nil_append]
    · refine number_append hlong.number.isNumeral ⟨htouch, fun hall => ?_⟩
      cases rest with
      | nil => exact ends_nil _
      | cons c rest =>
        refine ends_cons.mpr ?_
        by_contra hc
        obtain rfl : c = '.' := by simpa using hc
        rcases hlong.number.octal_or_point hall with hoctal | hpoint
        · exact ho hoctal
        · have hlen := hlong.longest _ hpoint ⟨rest, by simp⟩
          rw [List.length_append, List.length_singleton] at hlen
          omega

/-- The scan of a number fails for two reasons only. -/
theorem number_problem {p : Problem} (h : number text = .problem p t) :
    p = .identifierAfterNumber ∨ ∃ s, p = .badNumber s := by
  have hexponent : ∀ taken after, exponent taken after = .problem p t → ∃ s, p = .badNumber s := by
    intro taken after he
    cases after with
    | nil => cases he
    | cons mark after =>
      simp only [exponent] at he
      split at he
      · split at he
        · exact ⟨_, (Scan.problem.inj he).1.symm⟩
        · cases he
      · cases he
  rw [number] at h
  split at h
  · split at h
    · exact .inl (Scan.problem.inj h).1.symm
    · cases h
  · refine .inr ?_
    by_cases hx : opensZero isHexMark text = true
    · obtain ⟨mark, after, rfl, hm⟩ := opensZero_iff.mp hx
      rw [numeral_hex hm] at h
      split at h
      · exact ⟨_, (Scan.problem.inj h).1.symm⟩
      · cases h
    · by_cases ho : opensOctal text = true
      · rw [numeral_octal ho] at h
        cases h
      · rw [numeral_decimal (by simpa using hx) (by simpa using ho)] at h
        exact hexponent _ _ h

end

end Literal

namespace Lexer
open Literal

/-- A number ends the gap before it. -/
theorem opensNumber_stops {text : List Char} (h : opensNumber text = true) (fresh : Bool) :
    Gap.Stops fresh text := by
  cases text with
  | nil => cases h
  | cons c text =>
    have hc : Text.isDigit c = true ∨ c = '.' := by
      simp only [opensNumber, Bool.or_eq_true, Bool.and_eq_true] at h
      exact h.imp (by simp) fun h => by simpa using h.1
    have hmark : ∀ mark, mark = '/' ∨ mark = '<' ∨ mark = '-' → c ≠ mark := by
      rintro mark hm rfl
      rcases hc with hc | rfl
      · rcases hm with rfl | rfl | rfl <;> exact absurd hc (by decide)
      · exact absurd hm (by decide)
    have hslash := hmark '/' (by simp)
    have hangle := hmark '<' (by simp)
    have hminus := hmark '-' (by simp)
    refine ⟨fun b hb => ?_, ?_, ?_⟩
    · obtain rfl : c = b := by simpa using hb
      rcases hc with hc | rfl
      · exact digit_not_space hc
      · decide
    · simp [Gap.opensLineComment, List.isPrefixOf, hslash.symm, hangle.symm, hminus.symm]
    · simp [Gap.opensBlockComment, List.isPrefixOf, hslash.symm]

/-- The token of a number that begins where the lexer stands. -/
def numberToken (lx : Lexer) (t : List Char) : Token where
  tag := .number
  text := some (String.ofList t)
  line := lx.line
  start := lx.position
  stop := lx.position + Text.byteLength t
  newlineBefore := false

/-- The lexer behind a token that it took without a gap. -/
def behind (lx : Lexer) (t rest : List Char) : Lexer := { lx.advance t rest with fresh := false }

theorem pass_nothing {lx : Lexer} {text : List Char} (h : lx.rest = text) :
    lx.pass ⟨[], none, text⟩ = lx := by
  subst h
  cases lx
  simp [pass, advance, Gap.commentsFrom, Text.byteLength, Text.lineBreaks]

theorem next_number {lx : Lexer} (h : opensNumber lx.rest = true) :
    (∀ t rest, Literal.number lx.rest = .token t rest →
      lx.next = (.ok (lx.numberToken t), lx.behind t rest))
    ∧ ∀ p taken, Literal.number lx.rest = .problem p taken →
      ∃ line, lx.next.1 = .error ⟨line, p⟩ := by
  have hscan : Gap.scan lx.fresh lx.rest = ⟨[], none, lx.rest⟩ :=
    (opensNumber_stops h lx.fresh).scanFrom
  obtain ⟨c, text, hrest⟩ : ∃ c text, lx.rest = c :: text := by
    cases hrest : lx.rest with
    | nil => rw [hrest] at h; cases h
    | cons c text => exact ⟨c, text, rfl⟩
  have hlexeme : lexeme lx.dialect c (c :: text) = literal .number (Literal.number (c :: text)) := by
    rw [lexeme_eq rfl, if_pos (by rwa [hrest] at h)]
  rw [hrest] at hscan
  constructor
  · intro t rest hn
    rw [hrest] at hn
    simp only [next, hrest, hscan, pass_nothing hrest, hlexeme, hn, literal]
    rfl
  · intro p taken hn
    rw [hrest] at hn
    simp only [next, hrest, hscan, pass_nothing hrest, hlexeme, hn, literal]
    exact ⟨_, rfl⟩

/-- Where a number begins, the lexer reads the longest number there if neither a word nor a
backslash follows it, and fails otherwise. -/
theorem next_longest_number {lx : Lexer} (h : opensNumber lx.rest = true) :
    (∀ t rest, lx.next = (.ok (lx.numberToken t), lx.behind t rest) ↔
      lx.rest = t ++ rest ∧ IsLongest t lx.rest ∧ Ends opensWordAfter rest)
    ∧ ((¬ ∃ t rest, lx.rest = t ++ rest ∧ IsLongest t lx.rest ∧ Ends opensWordAfter rest) →
      ∃ line p, lx.next.1 = .error ⟨line, p⟩
        ∧ (p = .identifierAfterNumber ∨ ∃ s, p = .badNumber s)) := by
  obtain ⟨htoken, hproblem⟩ := next_number h
  constructor
  · intro t rest
    rw [← number_token_iff h]
    refine ⟨fun hnext => ?_, htoken t rest⟩
    cases hn : Literal.number lx.rest with
    | token t' rest' =>
      rw [htoken t' rest' hn] at hnext
      simp only [Prod.mk.injEq, Except.ok.injEq, numberToken, Token.mk.injEq, Option.some.injEq,
        String.ofList_inj, behind, advance, Lexer.mk.injEq] at hnext
      rw [hnext.1.2.2.1, hnext.2.2.1]
    | problem p taken =>
      obtain ⟨line, hl⟩ := hproblem p taken hn
      rw [hnext] at hl
      cases hl
  · intro hnone
    cases hn : Literal.number lx.rest with
    | token t rest => exact absurd ⟨t, rest, (number_token_iff h).mp hn⟩ hnone
    | problem p taken =>
      obtain ⟨line, hl⟩ := hproblem p taken hn
      exact ⟨line, p, hl, number_problem hn⟩

/-- A decimal number that begins with a zero stops at a sign. -/
theorem next_longest_legacy :
    opensNumber (start "08.e+1+0x" .v13 1 false).rest = true
      ∧ Literal.IsLongest "08.e+1".toList "08.e+1+0x".toList := by
  refine ⟨by decide, ?_⟩
  have hnext : (start "08.e+1+0x" .v13 1 false).next
      = (.ok ((start "08.e+1+0x" .v13 1 false).numberToken "08.e+1".toList),
        (start "08.e+1+0x" .v13 1 false).behind "08.e+1".toList "+0x".toList) := rfl
  exact (((next_longest_number (by decide)).1 _ _).mp hnext).2.1

end Lexer
end ScriptPress

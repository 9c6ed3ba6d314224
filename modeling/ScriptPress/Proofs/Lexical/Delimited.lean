import ScriptPress.Proofs.Lexical.Joining
import ScriptPress.Proofs.Lexical.LineCount
import ScriptPress.Proofs.Lexical.Numbers

/-! # Strings and regular expressions

A literal between delimiters is made of items. The scans of strings and of regular expressions take
a literal exactly where the text goes on with a delimiter, items and the delimiter that closes it;
whatever else a text goes on with is reported.
-/
namespace ScriptPress

namespace Literal

/-! ## The grammars -/

/-- An item of a string: a plain character, a continued line or an escape. -/
inductive StringItem (quote : Char) : List Char → Prop
  | plain {c} : c ≠ quote → c ≠ '\\' → Text.isLineBreak c = false → StringItem quote [c]
  | returnFeed : StringItem quote ['\\', '\r', '\n']
  | lineBreak {c} : Text.isLineBreak c = true → StringItem quote ['\\', c]
  | hex {digits : List Char} : digits.length = 2 → (∀ c ∈ digits, Text.isHexDigit c = true) →
      StringItem quote ('\\' :: 'x' :: digits)
  | unicode {digits : List Char} : digits.length = 4 → (∀ c ∈ digits, Text.isHexDigit c = true) →
      StringItem quote ('\\' :: 'u' :: digits)
  | escape {c} : Text.isLineBreak c = false → c ≠ 'x' → c ≠ 'u' → StringItem quote ['\\', c]

/-- A string with its quotes. -/
def IsString (text : List Char) : Prop :=
  ∃ quote, ∃ items : List (List Char), (quote = '"' ∨ quote = '\'')
    ∧ (∀ item ∈ items, StringItem quote item) ∧ text = quote :: items.flatten ++ [quote]

/-- A member of a class: a plain character, or any escaped one of the line. -/
inductive ClassMember : List Char → Prop
  | plain {c} : c ≠ ']' → c ≠ '\\' → Text.isLineBreak c = false → ClassMember [c]
  | escape {c} : Text.isLineBreak c = false → ClassMember ['\\', c]

/-- An item of a regular expression: a plain character, an escaped one or a class in brackets. -/
inductive PatternItem : List Char → Prop
  | plain {c} : c ≠ '\\' → c ≠ '/' → c ≠ '[' → Text.isLineBreak c = false → PatternItem [c]
  | escape {c} : Text.isLineBreak c = false → PatternItem ['\\', c]
  | brackets {members : List (List Char)} : (∀ member ∈ members, ClassMember member) →
      PatternItem ('[' :: members.flatten ++ [']'])

/-- A regular expression with its slashes and flags. -/
def IsRegExp (text : List Char) : Prop :=
  ∃ (items : List (List Char)) (flags : List Char), (∀ item ∈ items, PatternItem item)
    ∧ (∀ c ∈ flags, Text.isIdentPart c = true) ∧ text = '/' :: items.flatten ++ '/' :: flags

/-! ## Scans and items -/

section
variable {P R Q : List Char → Prop} {text : List Char}

/-- A text from which items can be split until the last part is left consists of items. -/
theorem exists_items (hne : ∀ item, P item → item ≠ [])
    (hsplit : ∀ text, R text →
      Q text ∨ ∃ item after, P item ∧ text = item ++ after ∧ R after) (h : R text) :
    ∃ (items : List (List Char)) (after : List Char), (∀ item ∈ items, P item)
      ∧ text = items.flatten ++ after ∧ Q after := by
  induction hn : text.length using Nat.strong_induction_on generalizing text with
  | _ n ih =>
    subst hn
    rcases hsplit text h with hlast | ⟨item, after, hitem, rfl, hafter⟩
    · exact ⟨[], text, by simp, rfl, hlast⟩
    · have hlen : after.length < (item ++ after).length := by
        rw [List.length_append]
        exact Nat.lt_add_of_pos_left (List.length_pos_iff.mpr (hne item hitem))
      obtain ⟨items, last, hitems, rfl, hlast⟩ := ih _ hlen hafter rfl
      exact ⟨item :: items, last, List.forall_mem_cons.mpr ⟨hitem, hitems⟩, by simp, hlast⟩

/-- What holds of a last part and goes on over an item holds before any items. -/
theorem items_append (hgo : ∀ item after, P item → R after → R (item ++ after))
    (h : R text) : ∀ items : List (List Char), (∀ item ∈ items, P item) →
      R (items.flatten ++ text) := by
  intro items hitems
  induction items with
  | nil => exact h
  | cons item items ih =>
    obtain ⟨hitem, hitems⟩ := List.forall_mem_cons.mp hitems
    rw [List.flatten_cons, List.append_assoc]
    exact hgo item _ hitem (ih hitems)

end

/-- A local scan takes what it takes when nothing comes behind. -/
theorem token_iff_whole {scan : List Char → Scan} {last : Char}
    (hlocal : ∀ text, Local scan last text) {text t rest : List Char} :
    scan text = .token t rest ↔ text = t ++ rest ∧ scan t = .token t [] := by
  constructor
  · intro h
    obtain ⟨htext, -, hall⟩ := hlocal text t rest h
    exact ⟨htext, by simpa using hall []⟩
  · rintro ⟨rfl, h⟩
    exact (hlocal t t [] h).2.2 rest

/-! ## Strings -/

section
open Render
variable {quote c : Char} {text : List Char}

theorem isStringRest_nil (place : StringPlace) : ¬ IsStringRest quote place [] := by
  cases place <;> simp [IsStringRest, stringFrom]

/-- Among plain characters stands one that is none of the three the scan looks for, a backslash, or
the closing quote. -/
theorem isStringRest_plain :
    IsStringRest quote (.plain false) (c :: text) ↔
      (Text.isLineBreak c = false ∧ c ≠ '\\' ∧ c ≠ quote ∧ IsStringRest quote (.plain false) text)
      ∨ (c = '\\' ∧ IsStringRest quote .escape text)
      ∨ (Text.isLineBreak c = false ∧ c ≠ '\\' ∧ c = quote ∧ text = []) := by
  by_cases hbreak : Text.isLineBreak c = true
  · have hslash : c ≠ '\\' := by
      rintro rfl
      exact absurd hbreak (by decide)
    simp [IsStringRest, stringFrom, hbreak, hslash]
  simp only [Bool.not_eq_true] at hbreak
  by_cases hslash : c = '\\'
  · subst hslash
    have hgo : ∀ rest, stringFrom quote (.plain false) ('\\' :: rest)
        = (stringFrom quote .escape rest).cons '\\' := fun rest => by simp [stringFrom, hbreak]
    rw [isStringRest_cons hgo]
    simp
  by_cases hquote : c = quote
  · subst hquote
    have hend : stringFrom c (.plain false) (c :: text) = .token [c] text := by
      simp [stringFrom, hbreak, hslash]
    rw [IsStringRest, hend]
    simp [hbreak, hslash, eq_comm]
  · have hgo : ∀ rest, stringFrom quote (.plain false) (c :: rest)
        = (stringFrom quote (.plain false) rest).cons c := fun rest => by
      simp [stringFrom, hbreak, hslash, hquote]
    rw [isStringRest_cons hgo]
    simp [hbreak, hslash, hquote]

theorem isStringRest_escape :
    IsStringRest quote .escape (c :: text) ↔
      IsStringRest quote
        (if c == 'x' then .hex 1 else if c == 'u' then .hex 3 else .plain (c == '\r')) text :=
  isStringRest_cons fun _ => rfl

theorem isStringRest_digit {more : Nat} :
    IsStringRest quote (.hex more) text ↔ ∃ c after, Text.isHexDigit c = true ∧ text = c :: after
      ∧ IsStringRest quote (match more with | 0 => .plain false | n + 1 => .hex n) after := by
  cases text with
  | nil => simp [isStringRest_nil]
  | cons c text =>
    by_cases hc : Text.isHexDigit c = true
    · have hgo : ∀ rest, stringFrom quote (.hex more) (c :: rest) = (stringFrom quote
          (match more with | 0 => .plain false | n + 1 => .hex n) rest).cons c :=
        fun _ => if_pos hc
      rw [isStringRest_cons hgo]
      simp [hc]
    · simp [IsStringRest, stringFrom, hc]

/-- A hexadecimal escape goes on with all its digits. -/
theorem isStringRest_hex {more : Nat} :
    IsStringRest quote (.hex more) text ↔ ∃ digits after, digits.length = more + 1
      ∧ (∀ c ∈ digits, Text.isHexDigit c = true) ∧ text = digits ++ after
      ∧ IsStringRest quote (.plain false) after := by
  induction more generalizing text with
  | zero =>
    rw [isStringRest_digit]
    constructor
    · rintro ⟨c, after, hc, rfl, h⟩
      exact ⟨[c], after, rfl, by simpa using hc, rfl, h⟩
    · rintro ⟨digits, after, hlen, hall, rfl, h⟩
      obtain ⟨c, rfl⟩ := List.length_eq_one_iff.mp hlen
      exact ⟨c, after, hall c (by simp), rfl, h⟩
  | succ n ih =>
    rw [isStringRest_digit]
    constructor
    · rintro ⟨c, more, hc, rfl, h⟩
      obtain ⟨digits, after, hlen, hall, rfl, hafter⟩ := ih.mp h
      exact ⟨c :: digits, after, by simp [hlen], List.forall_mem_cons.mpr ⟨hc, hall⟩, rfl, hafter⟩
    · rintro ⟨digits, after, hlen, hall, rfl, h⟩
      obtain ⟨c, digits, rfl⟩ := List.exists_cons_of_length_eq_add_one hlen
      obtain ⟨hc, hall⟩ := List.forall_mem_cons.mp hall
      exact ⟨c, _, hc, rfl, ih.mpr ⟨digits, after, by simpa using hlen, hall, rfl, h⟩⟩

/-- Behind a carriage return that ends a continued line, a line feed belongs to it. -/
theorem isStringRest_feed :
    IsStringRest quote (.plain true) text ↔
      IsStringRest quote (.plain false) text
        ∨ ∃ after, text = '\n' :: after ∧ IsStringRest quote (.plain false) after := by
  cases text with
  | nil => simp [isStringRest_nil]
  | cons c text =>
    by_cases hc : c = '\n'
    · subst hc
      have hno : ¬ IsStringRest quote (.plain false) ('\n' :: text) := by
        rw [isStringRest_plain]
        simp [Text.isLineBreak]
      have hgo : ∀ rest, stringFrom quote (.plain true) ('\n' :: rest)
          = (stringFrom quote (.plain false) rest).cons '\n' := fun rest => by simp [stringFrom]
      rw [isStringRest_cons hgo]
      simp [hno]
    · have hsame : ∀ rest, stringFrom quote (.plain true) (c :: rest)
          = stringFrom quote (.plain false) (c :: rest) := fun rest => by simp [stringFrom, hc]
      simp [IsStringRest, hsame, hc]

/-- Behind a backslash stands what makes an item with it, before the rest of a string. -/
theorem isStringRest_escape_split (h : IsStringRest quote .escape text) :
    ∃ body after, StringItem quote ('\\' :: body) ∧ text = body ++ after
      ∧ IsStringRest quote (.plain false) after := by
  cases text with
  | nil => exact absurd h (isStringRest_nil _)
  | cons c text =>
    rw [isStringRest_escape] at h
    by_cases hx : c = 'x'
    · subst hx
      obtain ⟨digits, after, hlen, hall, rfl, hafter⟩ := isStringRest_hex.mp h
      exact ⟨_, after, .hex hlen hall, rfl, hafter⟩
    by_cases hu : c = 'u'
    · subst hu
      obtain ⟨digits, after, hlen, hall, rfl, hafter⟩ := isStringRest_hex.mp h
      exact ⟨_, after, .unicode hlen hall, rfl, hafter⟩
    simp only [beq_iff_eq, hx, hu, if_false] at h
    by_cases hr : c = '\r'
    · subst hr
      rcases isStringRest_feed.mp h with hafter | ⟨after, rfl, hafter⟩
      · exact ⟨_, text, .lineBreak rfl, rfl, hafter⟩
      · exact ⟨_, after, .returnFeed, rfl, hafter⟩
    · rw [show (c == '\r') = false by simpa using hr] at h
      by_cases hbreak : Text.isLineBreak c = true
      · exact ⟨_, text, .lineBreak hbreak, rfl, h⟩
      · exact ⟨_, text, .escape (by simpa using hbreak) hx hu, rfl, h⟩

/-- The rest of a string is its closing quote, or an item before the rest of a string. -/
theorem isStringRest_split (h : IsStringRest quote (.plain false) text) :
    text = [quote] ∨ ∃ item after, StringItem quote item ∧ text = item ++ after
      ∧ IsStringRest quote (.plain false) after := by
  cases text with
  | nil => exact absurd h (isStringRest_nil _)
  | cons c text =>
    rcases isStringRest_plain.mp h with ⟨hbreak, hslash, hc, hafter⟩ | ⟨rfl, hescape⟩
      | ⟨-, -, rfl, rfl⟩
    · exact .inr ⟨[c], text, .plain hc hslash hbreak, rfl, hafter⟩
    · obtain ⟨body, after, hitem, rfl, hafter⟩ := isStringRest_escape_split hescape
      exact .inr ⟨_, after, hitem, rfl, hafter⟩
    · exact .inl rfl

/-- The scan of a string goes on over an item. -/
theorem StringItem.append {item : List Char} (h : StringItem quote item)
    (hrest : IsStringRest quote (.plain false) text) :
    IsStringRest quote (.plain false) (item ++ text) := by
  have hopen : ∀ {text}, IsStringRest quote .escape text →
      IsStringRest quote (.plain false) ('\\' :: text) := fun h =>
    isStringRest_plain.mpr (.inr (.inl ⟨rfl, h⟩))
  -- A continued line or a plain escape, which may end in a carriage return.
  have hone : ∀ c, c ≠ 'x' → c ≠ 'u' → IsStringRest quote .escape (c :: text) := by
    intro c hx hu
    rw [isStringRest_escape]
    simp only [beq_iff_eq, hx, hu, if_false]
    cases c == '\r' with
    | false => exact hrest
    | true => exact isStringRest_feed.mpr (.inl hrest)
  cases h with
  | plain hc hslash hbreak => exact isStringRest_plain.mpr (.inl ⟨hbreak, hslash, hc, hrest⟩)
  | returnFeed =>
    refine hopen (isStringRest_escape.mpr ?_)
    exact isStringRest_feed.mpr (.inr ⟨text, rfl, hrest⟩)
  | lineBreak hbreak =>
    refine hopen (hone _ ?_ ?_) <;> rintro rfl <;> exact absurd hbreak (by decide)
  | hex hlen hall =>
    exact hopen (isStringRest_escape.mpr (isStringRest_hex.mpr ⟨_, text, hlen, hall, rfl, hrest⟩))
  | unicode hlen hall =>
    exact hopen (isStringRest_escape.mpr (isStringRest_hex.mpr ⟨_, text, hlen, hall, rfl, hrest⟩))
  | escape _ hx hu => exact hopen (hone _ hx hu)

end

theorem quote_plain {quote : Char} (h : quote = '"' ∨ quote = '\'') :
    Text.isLineBreak quote = false ∧ quote ≠ '\\' := by
  rcases h with rfl | rfl <;> decide

/-- The scan of a string takes the strings of the grammar. -/
theorem string_token_iff {text t rest : List Char} (hopens : Lexer.opensString text = true) :
    string text = .token t rest ↔ text = t ++ rest ∧ IsString t := by
  have hcons : ∀ quote body, string (quote :: body) = .token (quote :: body) []
      ↔ Render.IsStringRest quote (.plain false) body := by
    intro quote body
    have hstring : string (quote :: body) = (stringFrom quote (.plain false) body).cons quote := rfl
    rw [hstring, Render.IsStringRest]
    cases stringFrom quote (.plain false) body <;> simp [Scan.cons]
  have hlocal : ∀ text, Local string (text.headD ' ') text := by
    rintro (- | ⟨quote, body⟩)
    · exact local_of_problem rfl
    · exact (stringFrom_local quote _ body).cons fun _ => rfl
  constructor
  · intro h
    obtain ⟨rfl, -, hall⟩ := hlocal text t rest h
    refine ⟨rfl, ?_⟩
    have hself : string t = .token t [] := by simpa using hall []
    cases t with
    | nil => cases hself
    | cons quote body =>
      have hq : quote = '"' ∨ quote = '\'' := by simpa [Lexer.opensString] using hopens
      obtain ⟨items, after, hitems, rfl, rfl⟩ := exists_items (P := StringItem quote)
        (Q := (· = [quote])) (fun item hitem => by cases hitem <;> simp)
        (fun _ => isStringRest_split) ((hcons quote body).mp hself)
      exact ⟨quote, items, hq, hitems, rfl⟩
  · rintro ⟨rfl, quote, items, hq, hitems, rfl⟩
    obtain ⟨hbreak, hslash⟩ := quote_plain hq
    have hlast : Render.IsStringRest quote (.plain false) [quote] :=
      isStringRest_plain.mpr (.inr (.inr ⟨hbreak, hslash, rfl, rfl⟩))
    have hbody := items_append (fun _ _ hitem hafter => StringItem.append hitem hafter) hlast
      items hitems
    exact (hlocal _ _ _ ((hcons quote _).mpr hbody)).2.2 rest

theorem cons_problem {s : Scan} {c : Char} {p : Problem} {taken : List Char}
    (h : s.cons c = .problem p taken) : ∃ taken', s = .problem p taken' := by
  cases s with
  | token t rest => cases h
  | problem q t =>
    obtain ⟨rfl, -⟩ := Scan.problem.inj h
    exact ⟨t, rfl⟩

theorem stringFrom_problem {quote : Char} {place : StringPlace} {text taken : List Char}
    {p : Problem} (h : stringFrom quote place text = .problem p taken) :
    p = .unterminatedString ∨ p = .invalidEscape := by
  induction text generalizing place taken with
  | nil => cases place <;> cases h <;> simp
  | cons c text ih =>
    have hgo : ∀ {place'}, (stringFrom quote place' text).cons c = .problem p taken →
        p = .unterminatedString ∨ p = .invalidEscape := fun h =>
      ih (cons_problem h).choose_spec
    cases place with
    | plain feed =>
      rw [stringFrom] at h
      split at h
      · exact hgo h
      split at h
      · exact .inl (Scan.problem.inj h).1.symm
      split at h
      · exact hgo h
      split at h
      · cases h
      · exact hgo h
    | escape => exact hgo h
    | hex more =>
      rw [stringFrom.eq_def] at h
      dsimp only at h
      split at h
      · exact hgo h
      · exact .inr (Scan.problem.inj h).1.symm

theorem string_problem {text taken : List Char} {p : Problem}
    (h : string text = .problem p taken) : p = .unterminatedString ∨ p = .invalidEscape := by
  cases text with
  | nil => exact .inl (Scan.problem.inj h).1.symm
  | cons quote text =>
    have hscan : (stringFrom quote (.plain false) text).cons quote = .problem p taken := h
    exact stringFrom_problem (cons_problem hscan).choose_spec

/-! ## Regular expressions -/

section
variable {bracketed escaped : Bool} {c : Char} {text : List Char}

/-- A whole text is what is left of a pattern at a place. -/
def IsPatternRest (bracketed escaped : Bool) (text : List Char) : Prop :=
  patternFrom bracketed escaped text = .token text []

theorem isPatternRest_nil : ¬ IsPatternRest bracketed escaped [] := by
  simp [IsPatternRest, patternFrom]

theorem isPatternRest_cons {bracketed' escaped' : Bool}
    (h : ∀ rest, patternFrom bracketed escaped (c :: rest)
      = (patternFrom bracketed' escaped' rest).cons c) :
    IsPatternRest bracketed escaped (c :: text) ↔ IsPatternRest bracketed' escaped' text := by
  unfold IsPatternRest
  rw [h]
  cases patternFrom bracketed' escaped' text with
  | token taken rest => simp [Scan.cons]
  | problem p taken => simp [Scan.cons]

theorem isPatternRest_no_break (h : IsPatternRest bracketed escaped (c :: text)) :
    Text.isLineBreak c = false := by
  by_contra hbreak
  rw [IsPatternRest, patternFrom, if_pos (by simpa using hbreak)] at h
  cases h

theorem isPatternRest_escaped (hbreak : Text.isLineBreak c = false) :
    IsPatternRest bracketed true (c :: text) ↔ IsPatternRest bracketed false text :=
  isPatternRest_cons fun rest => by simp [patternFrom, hbreak]

theorem isPatternRest_backslash :
    IsPatternRest bracketed false ('\\' :: text) ↔ IsPatternRest bracketed true text :=
  isPatternRest_cons fun rest => by simp [patternFrom, Text.isLineBreak]

theorem isPatternRest_open :
    IsPatternRest bracketed false ('[' :: text) ↔ IsPatternRest true false text :=
  isPatternRest_cons fun rest => by simp [patternFrom, Text.isLineBreak]

theorem isPatternRest_close :
    IsPatternRest bracketed false (']' :: text) ↔ IsPatternRest false false text :=
  isPatternRest_cons fun rest => by simp [patternFrom, Text.isLineBreak]

theorem isPatternRest_slash : IsPatternRest false false ('/' :: text) ↔ text = [] := by
  simp [IsPatternRest, patternFrom, Text.isLineBreak, eq_comm]

theorem isPatternRest_plain (hbreak : Text.isLineBreak c = false) (hslash : c ≠ '\\')
    (hopen : c ≠ '[') (hclose : c ≠ ']') (hend : c = '/' → bracketed = true) :
    IsPatternRest bracketed false (c :: text) ↔ IsPatternRest bracketed false text := by
  refine isPatternRest_cons fun rest => ?_
  by_cases hc : c = '/'
  · simp [patternFrom, hbreak, hslash, hopen, hclose, hend hc]
  · simp [patternFrom, hbreak, hslash, hopen, hclose, hc]

/-- An escape goes on at the place where its backslash stands. -/
theorem isPatternRest_escape_split (h : IsPatternRest bracketed false ('\\' :: text)) :
    ∃ c after, Text.isLineBreak c = false ∧ text = c :: after
      ∧ IsPatternRest bracketed false after := by
  rw [isPatternRest_backslash] at h
  cases text with
  | nil => exact absurd h isPatternRest_nil
  | cons c text =>
    have hbreak := isPatternRest_no_break h
    exact ⟨c, text, hbreak, rfl, (isPatternRest_escaped hbreak).mp h⟩

/-- Inside brackets stands the closing one, or a member before more. -/
theorem isPatternRest_class (h : IsPatternRest true false text) :
    (∃ after, text = ']' :: after ∧ IsPatternRest false false after)
      ∨ ∃ member after, ClassMember member ∧ text = member ++ after
        ∧ IsPatternRest true false after := by
  cases text with
  | nil => exact absurd h isPatternRest_nil
  | cons c text =>
    have hbreak := isPatternRest_no_break h
    by_cases hclose : c = ']'
    · subst hclose
      exact .inl ⟨text, rfl, isPatternRest_close.mp h⟩
    refine .inr ?_
    by_cases hslash : c = '\\'
    · subst hslash
      obtain ⟨c, after, hbreak, rfl, hafter⟩ := isPatternRest_escape_split h
      exact ⟨_, after, .escape hbreak, rfl, hafter⟩
    refine ⟨[c], text, .plain hclose hslash hbreak, rfl, ?_⟩
    by_cases hopen : c = '['
    · subst hopen
      exact isPatternRest_open.mp h
    · exact (isPatternRest_plain hbreak hslash hopen hclose fun _ => rfl).mp h

/-- Outside brackets stands the closing slash, or an item before more. -/
theorem isPatternRest_split (h : IsPatternRest false false text) :
    text = ['/'] ∨ ∃ item after, PatternItem item ∧ text = item ++ after
      ∧ IsPatternRest false false after := by
  cases text with
  | nil => exact absurd h isPatternRest_nil
  | cons c text =>
    have hbreak := isPatternRest_no_break h
    by_cases hend : c = '/'
    · subst hend
      exact .inl (by rw [isPatternRest_slash.mp h])
    refine .inr ?_
    by_cases hslash : c = '\\'
    · subst hslash
      obtain ⟨c, after, hbreak, rfl, hafter⟩ := isPatternRest_escape_split h
      exact ⟨_, after, .escape hbreak, rfl, hafter⟩
    by_cases hopen : c = '['
    · subst hopen
      obtain ⟨members, _, hmembers, rfl, after, rfl, hafter⟩ := exists_items (P := ClassMember)
        (fun member hmember => by cases hmember <;> simp) (fun _ => isPatternRest_class)
        (isPatternRest_open.mp h)
      exact ⟨_, after, .brackets hmembers, by simp, hafter⟩
    refine ⟨[c], text, .plain hslash hend hopen hbreak, rfl, ?_⟩
    by_cases hclose : c = ']'
    · subst hclose
      exact isPatternRest_close.mp h
    · exact (isPatternRest_plain hbreak hslash hopen hclose fun hc => absurd hc hend).mp h

theorem ClassMember.append {member : List Char} (h : ClassMember member)
    (hrest : IsPatternRest true false text) : IsPatternRest true false (member ++ text) := by
  cases h with
  | @plain c hclose hslash hbreak =>
    by_cases hopen : c = '['
    · subst hopen
      exact isPatternRest_open.mpr hrest
    · exact (isPatternRest_plain hbreak hslash hopen hclose fun _ => rfl).mpr hrest
  | escape hbreak => exact isPatternRest_backslash.mpr ((isPatternRest_escaped hbreak).mpr hrest)

theorem PatternItem.append {item : List Char} (h : PatternItem item)
    (hrest : IsPatternRest false false text) : IsPatternRest false false (item ++ text) := by
  cases h with
  | @plain c hslash hend hopen hbreak =>
    by_cases hclose : c = ']'
    · subst hclose
      exact isPatternRest_close.mpr hrest
    · exact (isPatternRest_plain hbreak hslash hopen hclose fun hc => absurd hc hend).mpr hrest
  | escape hbreak => exact isPatternRest_backslash.mpr ((isPatternRest_escaped hbreak).mpr hrest)
  | @brackets members hmembers =>
    have hbody := items_append (fun _ _ hmember hafter => ClassMember.append hmember hafter)
      (isPatternRest_close.mpr hrest) members hmembers
    rw [List.cons_append, List.cons_append, List.append_assoc]
    exact isPatternRest_open.mpr hbody

end

theorem patternFrom_problem {bracketed escaped : Bool} {text taken : List Char} {p : Problem}
    (h : patternFrom bracketed escaped text = .problem p taken) : p = .unterminatedRegExp := by
  induction text generalizing bracketed escaped taken with
  | nil => exact (Scan.problem.inj h).1.symm
  | cons c text ih =>
    have hgo : ∀ {b e}, (patternFrom b e text).cons c = .problem p taken →
        p = .unterminatedRegExp := fun h =>
      ih (cons_problem h).choose_spec
    rw [patternFrom] at h
    split at h
    · exact (Scan.problem.inj h).1.symm
    split at h
    · exact hgo h
    split at h
    · exact hgo h
    split at h
    · exact hgo h
    split at h
    · exact hgo h
    split at h
    · cases h
    · exact hgo h

theorem regExp_problem {text taken : List Char} {p : Problem}
    (h : regExp text = .problem p taken) : p = .unterminatedRegExp := by
  rw [regExp] at h
  split at h
  · cases h
  · exact patternFrom_problem h

/-- The scan of a regular expression takes the regular expressions of the grammar, with the longest
flags there are. -/
theorem regExp_token_iff {text body rest : List Char} :
    regExp text = .token body rest ↔
      text = body ++ rest ∧ IsRegExp ('/' :: body) ∧ Ends Text.isIdentPart rest := by
  have hlocal := patternFrom_local false false
  constructor
  · intro h
    obtain ⟨htext, hends, -⟩ := regExp_token h
    refine ⟨htext, ?_, hends⟩
    rw [regExp] at h
    split at h
    · next taken after hpattern =>
      obtain ⟨rfl, -⟩ := Scan.token.inj h
      obtain ⟨items, last, hitems, rfl, rfl⟩ := exists_items (P := PatternItem)
        (Q := (· = ['/'])) (fun item hitem => by cases hitem <;> simp)
        (fun _ => isPatternRest_split) ((token_iff_whole hlocal).mp hpattern).2
      exact ⟨items, after.takeWhile Text.isIdentPart, hitems, all_takeWhile _ _, by simp⟩
    · next hno => exact absurd h (hno _ _)
  · rintro ⟨rfl, ⟨items, flags, hitems, hflags, hbody⟩, hends⟩
    obtain rfl : body = items.flatten ++ '/' :: flags := (List.cons.inj hbody).2
    have hwhole : IsPatternRest false false (items.flatten ++ ['/']) := items_append
      (fun _ _ hitem hafter => PatternItem.append hitem hafter) (isPatternRest_slash.mpr rfl)
      items hitems
    have hpattern : patternFrom false false (items.flatten ++ ['/'] ++ (flags ++ rest))
        = .token (items.flatten ++ ['/']) (flags ++ rest) :=
      (token_iff_whole hlocal).mpr ⟨rfl, hwhole⟩
    have htext : items.flatten ++ '/' :: flags ++ rest
        = items.flatten ++ ['/'] ++ (flags ++ rest) := by simp
    rw [htext, regExp, hpattern]
    dsimp only
    rw [takeWhile_append_of_ends hends, dropWhile_append_of_ends hends, takeWhile_eq_self hflags,
      dropWhile_eq_nil hflags]
    simp

theorem IsRegExp.no_break {text : List Char} (h : IsRegExp text) :
    ∀ c ∈ text, Text.isLineBreak c = false := by
  obtain ⟨body, rfl⟩ : ∃ body, text = '/' :: body := by
    obtain ⟨items, flags, -, -, rfl⟩ := h
    exact ⟨_, rfl⟩
  have hscan : regExp (body ++ []) = .token body [] :=
    regExp_token_iff.mpr ⟨rfl, h, ends_nil _⟩
  exact List.forall_mem_cons.mpr ⟨by decide, CommentRemoval.regExp_no_break hscan⟩

end Literal

namespace Lexer
open Literal

/-! ## Reading them -/

/-- The token of a string that begins where the lexer stands, behind a gap. -/
def stringToken (lx : Lexer) (gap : Gap) (t : List Char) : Token where
  tag := .string
  text := some (String.ofList t)
  line := lx.line
  start := lx.position
  stop := lx.position + Text.byteLength t
  newlineBefore := gap.hasNewline

/-- A slash that was read again as a regular expression. -/
def patternToken (slash : Token) (t : List Char) : Token :=
  { slash with
    tag := .regExp, datum := none, text := some (String.ofList t)
    stop := slash.start + Text.byteLength t }

/-- Neither a number nor a word begins where a string does. -/
theorem lexeme_string {d : Dialect} {c : Char} {text : List Char}
    (h : opensString (c :: text) = true) :
    lexeme d c (c :: text) = literal .string (Literal.string (c :: text)) := by
  have hc : c = '"' ∨ c = '\'' := by simpa [opensString] using h
  have hstart : Text.isDigit c = false ∧ c ≠ '.' ∧ Text.isIdentStart c = false ∧ c ≠ '\\' := by
    rcases hc with rfl | rfl <;> decide
  obtain ⟨hdigit, hdot, hident, hslash⟩ := hstart
  have hnumber : opensNumber (c :: text) = false := by simp [opensNumber, hdigit, hdot]
  have hword : opensWord (c :: text) = false := by simp [opensWord, hident, hslash]
  rw [lexeme_eq rfl, hnumber, hword, h]
  rfl

theorem next_string {lx : Lexer} {gap : Gap} (hgap : Gap.scan lx.fresh lx.rest = gap)
    (hu : gap.unfinished = none) (h : opensString gap.rest = true) :
    (∀ t rest, Literal.string gap.rest = .token t rest →
      lx.next = (.ok ((lx.pass gap).stringToken gap t), (lx.pass gap).behind t rest))
    ∧ ∀ p taken, Literal.string gap.rest = .problem p taken →
      ∃ line, lx.next.1 = .error ⟨line, p⟩ := by
  obtain ⟨c, text, hrest⟩ : ∃ c text, gap.rest = c :: text := by
    cases hrest : gap.rest with
    | nil => rw [hrest] at h; cases h
    | cons c text => exact ⟨c, text, rfl⟩
  have hhere : (lx.pass gap).rest = c :: text := hrest
  have hlexeme := @lexeme_string lx.dialect c text (hrest ▸ h)
  constructor
  · intro t rest hs
    rw [hrest] at hs
    simp only [next, hgap, hu, hhere, show (lx.pass gap).dialect = lx.dialect from rfl, hlexeme, hs,
      literal]
    rfl
  · intro p taken hs
    rw [hrest] at hs
    simp only [next, hgap, hu, hhere, show (lx.pass gap).dialect = lx.dialect from rfl, hlexeme, hs,
      literal]
    exact ⟨_, rfl⟩

/-- Where a slash stands that the lexer has read. -/
theorem next_slash {lx place : Lexer} {slash : Token} (h : lx.next = (.ok slash, place))
    (hslash : slash.isSlash = true) :
    ∃ skipped, lx.rest = skipped ++ '/' :: slash.reopen place.rest
      ∧ slash.start = lx.position + Text.byteLength skipped ∧ slash.line = place.line := by
  obtain ⟨gap, hgap, hu, hstart, hcase⟩ := next_inv h
  obtain ⟨-, htext⟩ := Gap.scanFrom_undivided (.between lx.fresh) lx.rest trivial
  have hline := next_line h
  rw [hgap, hu] at htext
  rw [Gap.scan, hgap] at hline
  obtain ⟨-, htag, -⟩ | ⟨c, l, hc, hl, hof, -, rfl⟩ := hcase
  · simp [Token.isSlash, htag] at hslash
  · have hslice := slash_slice (spells_of_lexeme hc (hof ▸ hl)) hslash
    obtain ⟨hsplit, -⟩ := lexeme_ok hc (hof ▸ hl)
    refine ⟨Gap.pieceTexts gap.pieces, ?_, hstart, ?_⟩
    · rw [show lx.rest = _ from htext, Option.getD_none, List.nil_append]
      exact congrArg _ (hsplit.trans hslice)
    · rw [hline]
      exact (Nat.add_eq_left.mpr (Text.lineBreaks_eq_zero (slash_plain hslice))).symm

theorem rescan_literal {lx : Lexer} {slash : Token} (hd : lx.dialect.hasRegExpLiterals = true) :
    (∀ body rest, Literal.regExp (slash.reopen lx.rest) = .token body rest →
      lx.rescan slash = (.ok (patternToken slash ('/' :: body)),
        { lx with
          rest, position := slash.start + Text.byteLength ('/' :: body)
          line := lx.line + Text.lineBreaks body }))
    ∧ ∀ p taken, Literal.regExp (slash.reopen lx.rest) = .problem p taken →
      (lx.rescan slash).1 = .error ⟨slash.line, p⟩ := by
  have hreopen : (if slash.tag == .assign then '=' :: lx.rest else lx.rest)
      = slash.reopen lx.rest := rfl
  have hsize : ∀ body, slash.start + 1 + Text.byteLength body
      = slash.start + Text.byteLength ('/' :: body) := by
    intro body
    rw [Nat.add_assoc]
    rfl
  constructor
  · intro body rest hscan
    simp only [rescan, hd, hreopen, hscan, Bool.not_true, Bool.false_eq_true, if_false, advance,
      hsize, patternToken]
  · intro p taken hscan
    simp only [rescan, hd, hreopen, hscan, Bool.not_true, Bool.false_eq_true, if_false]

/-- Where a string begins, the lexer reads one of the grammar if there is one and fails otherwise.
A slash that it has read can be read again as a regular expression exactly if one of the grammar
begins there, also from behind later tokens. Both are read as spelled and the lexer stands behind
them. -/
theorem next_delimited (lx : Lexer) :
    (∀ gap, Gap.scan lx.fresh lx.rest = gap → gap.unfinished = none → opensString gap.rest = true →
      (∀ t rest, lx.next = (.ok ((lx.pass gap).stringToken gap t), (lx.pass gap).behind t rest) ↔
        gap.rest = t ++ rest ∧ IsString t)
      ∧ ((¬ ∃ t rest, gap.rest = t ++ rest ∧ IsString t) →
        ∃ line p, lx.next.1 = .error ⟨line, p⟩ ∧ (p = .unterminatedString ∨ p = .invalidEscape)))
    ∧ ∀ slash place, lx.next = (.ok slash, place) → slash.isSlash = true →
      ∃ skipped text, lx.rest = skipped ++ text
        ∧ slash.start = lx.position + Text.byteLength skipped
        ∧ ∀ later : Lexer, later.dialect.hasRegExpLiterals = true →
          (∀ t rest, (later.backTo place).rescan slash = (.ok (patternToken slash t),
              { later with
                rest, position := slash.start + Text.byteLength t, line := slash.line }) ↔
            text = t ++ rest ∧ IsRegExp t ∧ Ends Text.isIdentPart rest)
          ∧ ((¬ ∃ t rest, text = t ++ rest ∧ IsRegExp t ∧ Ends Text.isIdentPart rest) →
            ((later.backTo place).rescan slash).1 = .error ⟨slash.line, .unterminatedRegExp⟩) := by
  constructor
  · intro gap hgap hu hopens
    obtain ⟨htoken, hproblem⟩ := next_string hgap hu hopens
    constructor
    · intro t rest
      rw [← string_token_iff hopens]
      refine ⟨fun hnext => ?_, htoken t rest⟩
      cases hs : Literal.string gap.rest with
      | token t' rest' =>
        rw [htoken t' rest' hs] at hnext
        simp only [Prod.mk.injEq, Except.ok.injEq, stringToken, Token.mk.injEq, Option.some.injEq,
          String.ofList_inj, behind, advance, Lexer.mk.injEq] at hnext
        rw [hnext.1.2.2.1, hnext.2.2.1]
      | problem p taken =>
        obtain ⟨line, hl⟩ := hproblem p taken hs
        rw [hnext] at hl
        cases hl
    · intro hnone
      cases hs : Literal.string gap.rest with
      | token t rest => exact absurd ⟨t, rest, (string_token_iff hopens).mp hs⟩ hnone
      | problem p taken =>
        obtain ⟨line, hl⟩ := hproblem p taken hs
        exact ⟨line, p, hl, string_problem hs⟩
  · intro slash place hnext hslash
    obtain ⟨skipped, htext, hstart, hline⟩ := next_slash hnext hslash
    refine ⟨skipped, _, htext, hstart, fun later hd => ?_⟩
    obtain ⟨htoken, hproblem⟩ := @rescan_literal (later.backTo place) slash hd
    -- No line ends in a regular expression, so the lexer stays on the line of the slash.
    have hread : ∀ body rest, Literal.regExp (slash.reopen place.rest) = .token body rest →
        (later.backTo place).rescan slash = (.ok (patternToken slash ('/' :: body)),
          { later with
            rest, position := slash.start + Text.byteLength ('/' :: body)
            line := slash.line }) := by
      intro body rest hscan
      have hbreaks := Text.lineBreaks_eq_zero (CommentRemoval.regExp_no_break hscan)
      rw [htoken body rest hscan, hline, hbreaks]
      rfl
    constructor
    · intro t rest
      constructor
      · intro hrescan
        cases hs : Literal.regExp (slash.reopen place.rest) with
        | token body rest' =>
          rw [hread body rest' hs] at hrescan
          simp only [Prod.mk.injEq, Except.ok.injEq, patternToken, Token.mk.injEq,
            Option.some.injEq, String.ofList_inj, Lexer.mk.injEq] at hrescan
          obtain ⟨hsplit, hshape, hends⟩ := regExp_token_iff.mp hs
          rw [← hrescan.1.2.2.1, ← hrescan.2.2.1]
          exact ⟨congrArg ('/' :: ·) hsplit, hshape, hends⟩
        | problem p taken =>
          have hfail := hproblem p taken hs
          rw [hrescan] at hfail
          cases hfail
      · rintro ⟨hsplit, hshape, hends⟩
        obtain ⟨body, rfl⟩ : ∃ body, t = '/' :: body := by
          obtain ⟨items, flags, -, -, rfl⟩ := hshape
          exact ⟨_, rfl⟩
        exact hread body rest (regExp_token_iff.mpr ⟨(List.cons.inj hsplit).2, hshape, hends⟩)
    · intro hnone
      cases hs : Literal.regExp (slash.reopen place.rest) with
      | token body rest =>
        obtain ⟨hsplit, hshape, hends⟩ := regExp_token_iff.mp hs
        exact absurd ⟨'/' :: body, rest, congrArg ('/' :: ·) hsplit, hshape, hends⟩ hnone
      | problem p taken => rw [hproblem p taken hs, regExp_problem hs]

/-- A string with a continued line, and a regular expression with slashes in a class and in an
escape. -/
theorem next_delimited_items :
    Literal.IsString "'\\x4f\\\r\n\\''".toList ∧ Literal.IsRegExp "/=[/\\]]\\//g".toList
      ∧ ∃ slash place, (start "/=[/\\]]\\//g;" .v13 1 false).next = (.ok slash, place)
        ∧ slash.isSlash = true := by
  have hstring := (next_delimited (start " '\\x4f\\\r\n\\'';" .v13 1 false)).1 _ rfl rfl rfl
  have hpattern := (next_delimited (start "/=[/\\]]\\//g;" .v13 1 false)).2 _ _ rfl rfl
  obtain ⟨-, text, -, -, hall⟩ := hpattern
  have hread := ((hall (start "" .v13 1 false) rfl).1 "/=[/\\]]\\//g".toList [';']).mp rfl
  exact ⟨((hstring.1 "'\\x4f\\\r\n\\''".toList [';']).mp rfl).2, hread.2.1, _, _, rfl, rfl⟩

end Lexer
end ScriptPress

import Mathlib.Data.List.TakeDrop
import ScriptPress.Proofs.Options.Field

/-! # The lines of an options file

A line is skipped or gives a text to a key. It is wrong where it does neither, and where the key is
the key of a field and the text none of its values. A file is read when none of its lines is wrong,
and then a field has the value from the last line with its key. Otherwise the first wrong line is
reported, by its number among all lines.
-/
namespace ScriptPress
namespace Options

variable {o o' : Options} {f : Field} {line text before after : List Char} {key : String}
  {lines rest : List (List Char)} {problem : OptionProblem} {setting? : Option Setting} {n : Nat}

/-! ## One line -/

/-- A blank line, or a comment. -/
def Skipped (line : List Char) : Prop :=
  Text.trim line = [] ∨ (Text.trim line).head? = some '#'

/-- A line gives a text to a key: the first equals sign parts the two, and the white space around
either belongs to neither. -/
def Assigns (line : List Char) (key : String) (text : List Char) : Prop :=
  ¬ Skipped line ∧ ∃ before after, Text.trim line = before ++ '=' :: after ∧ '=' ∉ before
    ∧ String.ofList (Text.trim before) = key ∧ Text.trim after = text

/-- Nothing is wrong with a line: where its key is the key of a field, its text means a value. -/
def Sound (line : List Char) : Prop :=
  Skipped line ∨ ∃ key text, Assigns line key text
    ∧ ∀ f : Field, f.key = key → ∃ v, f.kind.Means text v

/-- What is wrong with a line. -/
inductive Fault (line : List Char) : OptionProblem → Prop where
  | noValue : ¬ Skipped line → '=' ∉ Text.trim line → Fault line .noValue
  | value {f : Field} {text : List Char} {problem : OptionProblem} : Assigns line f.key text →
    f.kind.Refuses f.key text problem → Fault line problem

/-- A line has the key of a field. -/
def Field.NamedBy (f : Field) (line : List Char) : Prop := ∃ text, Assigns line f.key text

/-- A line gives a field a value. -/
def Field.SetBy (f : Field) (line : List Char) (v : f.kind.Value) : Prop :=
  ∃ text, Assigns line f.key text ∧ f.kind.Means text v

theorem span_first (h : '=' ∉ before) :
    (before ++ '=' :: after).span (· ≠ '=') = (before, '=' :: after) := by
  have hbefore : ∀ c ∈ before, decide (c ≠ '=') = true := by
    intro c hc
    apply decide_eq_true
    rintro rfl
    exact h hc
  rw [List.span_eq_takeWhile_dropWhile, List.takeWhile_append_of_pos hbefore,
    List.dropWhile_append_of_pos hbefore]
  simp

theorem Assigns.unique {key' : String} {text' : List Char} (h : Assigns line key text)
    (h' : Assigns line key' text') : key = key' ∧ text = text' := by
  obtain ⟨-, before, after, hline, hfirst, rfl, rfl⟩ := h
  obtain ⟨-, before', after', hline', hfirst', rfl, rfl⟩ := h'
  have hparts : (Text.trim line).span (· ≠ '=') = (before, '=' :: after) := by
    rw [hline]
    exact span_first hfirst
  rw [hline', span_first hfirst', Prod.mk.injEq, List.cons.injEq] at hparts
  obtain ⟨rfl, -, rfl⟩ := hparts
  exact ⟨rfl, rfl⟩

instance : DecidablePred Skipped := fun line =>
  inferInstanceAs (Decidable (Text.trim line = [] ∨ (Text.trim line).head? = some '#'))

theorem Field.namedBy_iff : f.NamedBy line ↔ ¬ Skipped line ∧ '=' ∈ Text.trim line
    ∧ String.ofList (Text.trim ((Text.trim line).span (· ≠ '=')).1) = f.key := by
  constructor
  · rintro ⟨_, hskipped, before, after, hline, hfirst, hkey, -⟩
    rw [hline, span_first hfirst]
    exact ⟨hskipped, by simp, hkey⟩
  · rintro ⟨hskipped, hsign, hkey⟩
    obtain ⟨before, after, hline, hfirst⟩ := List.eq_append_cons_of_mem hsign
    rw [hline, span_first hfirst] at hkey
    exact ⟨_, hskipped, before, after, hline, hfirst, hkey, rfl⟩

instance (f : Field) : DecidablePred f.NamedBy := fun _ => decidable_of_iff _ Field.namedBy_iff.symm

theorem line_cases (line : List Char) : Skipped line
    ∨ (¬ Skipped line ∧ '=' ∉ Text.trim line) ∨ ∃ key text, Assigns line key text := by
  by_cases hskipped : Skipped line
  · exact .inl hskipped
  · by_cases hsign : '=' ∈ Text.trim line
    · obtain ⟨before, after, hline, hfirst⟩ := List.eq_append_cons_of_mem hsign
      exact .inr (.inr ⟨_, _, hskipped, before, after, hline, hfirst, rfl, rfl⟩)
    · exact .inr (.inl ⟨hskipped, hsign⟩)

theorem readLine_skipped (h : Skipped line) : readLine line = .ok none :=
  if_pos h

theorem readLine_noValue (h : ¬ Skipped line) (hsign : '=' ∉ Text.trim line) :
    readLine line = .error .noValue := by
  rw [readLine]
  exact (if_neg h).trans (if_neg (by simpa using hsign))

theorem readLine_assigns (h : Assigns line key text) : readLine line = readSetting key text := by
  obtain ⟨hskipped, before, after, hline, hfirst, rfl, rfl⟩ := h
  have hsign : (Text.trim line).contains '=' = true := by simp [hline]
  rw [readLine]
  refine (if_neg hskipped).trans ((if_pos hsign).trans ?_)
  rw [hline, span_first hfirst]
  rfl

/-- What can come of a line. -/
inductive Reads (line : List Char) : Except OptionProblem (Option Setting) → Prop where
  | skipped : Skipped line → Reads line (.ok none)
  | unknown {key : String} {text : List Char} : Assigns line key text →
    (∀ f : Field, key ≠ f.key) → Reads line (.ok none)
  | set {f : Field} {text : List Char} {v : f.kind.Value} : Assigns line f.key text →
    f.kind.Means text v → Reads line (.ok (some (f.setting v)))
  | fault {problem : OptionProblem} : Fault line problem → Reads line (.error problem)

theorem reads_readLine (line : List Char) : Reads line (readLine line) := by
  rcases line_cases line with hskipped | ⟨hskipped, hsign⟩ | ⟨key, text, hline⟩
  · rw [readLine_skipped hskipped]
    exact .skipped hskipped
  · rw [readLine_noValue hskipped hsign]
    exact .fault (.noValue hskipped hsign)
  · rw [readLine_assigns hline]
    by_cases hknown : ∃ f : Field, key = f.key
    · obtain ⟨f, rfl⟩ := hknown
      rcases f.kind.means_or_refuses f.key text with ⟨v, hv⟩ | ⟨problem, hproblem⟩
      · rw [readSetting_of_means hv]
        exact .set hline hv
      · rw [readSetting_of_refuses hproblem]
        exact .fault (.value hline hproblem)
    · rw [readSetting_unknown (not_exists.mp hknown)]
      exact .unknown hline (not_exists.mp hknown)

theorem Fault.not_sound (h : Fault line problem) : ¬ Sound line := by
  rintro (hskipped | ⟨key, text, hline, hmeans⟩)
  · cases h with
    | noValue hnot => exact hnot hskipped
    | value hline => exact hline.1 hskipped
  · cases h with
    | noValue _ hsign =>
      obtain ⟨-, before, after, heq, -⟩ := hline
      exact hsign (heq ▸ List.mem_append_right before List.mem_cons_self)
    | value hline' hproblem =>
      obtain ⟨hkey, rfl⟩ := hline'.unique hline
      obtain ⟨v, hv⟩ := hmeans _ hkey
      have hread := readSetting_of_refuses hproblem
      rw [readSetting_of_means hv] at hread
      cases hread

theorem sound_of_readLine (h : readLine line = .ok setting?) : Sound line := by
  have hread := reads_readLine line
  rw [h] at hread
  cases hread with
  | skipped hskipped => exact .inl hskipped
  | @unknown key text hline hunknown =>
    exact .inr ⟨key, text, hline, fun f hf => absurd hf.symm (hunknown f)⟩
  | @set g text v hline hv =>
    refine .inr ⟨g.key, text, hline, ?_⟩
    intro f hf
    obtain rfl := Field.key_injective hf
    exact ⟨v, hv⟩

theorem fault_of_readLine (h : readLine line = .error problem) : Fault line problem := by
  have hread := reads_readLine line
  rw [h] at hread
  cases hread with
  | fault hfault => exact hfault

/-- A line that is read gives each field the value it has for the key, or leaves the field alone
where it has another key or none. -/
theorem readLine_get (h : readLine line = .ok setting?) (o : Options) (f : Field) :
    f.SetBy line ((setting?.elim o o.set).get f)
      ∨ ¬ f.NamedBy line ∧ (setting?.elim o o.set).get f = o.get f := by
  have hread := reads_readLine line
  rw [h] at hread
  cases hread with
  | skipped hskipped =>
    refine .inr ⟨?_, rfl⟩
    rintro ⟨text, hline⟩
    exact hline.1 hskipped
  | unknown hline hunknown =>
    refine .inr ⟨?_, rfl⟩
    rintro ⟨text, hline'⟩
    exact hunknown f (hline.unique hline').1
  | @set g text v hline hv =>
    by_cases heq : g = f
    · subst heq
      exact .inl ⟨text, hline, (get_set_self v).symm ▸ hv⟩
    · refine .inr ⟨?_, get_set_of_ne heq v⟩
      rintro ⟨text', hline'⟩
      exact heq (Field.key_injective (hline.unique hline').1)

/-! ## All lines -/

theorem readLines_cons_eq_ok (h : readLines o n (line :: rest) = .ok o') :
    ∃ setting?, readLine line = .ok setting?
      ∧ readLines (setting?.elim o o.set) (n + 1) rest = .ok o' := by
  rw [readLines] at h
  cases hline : readLine line with
  | error problem =>
    rw [hline] at h
    cases h
  | ok setting? =>
    rw [hline] at h
    exact ⟨setting?, rfl, h⟩

theorem sound_of_readLines (h : readLines o n lines = .ok o') : ∀ line ∈ lines, Sound line := by
  induction lines generalizing o n with
  | nil => nofun
  | cons line rest ih =>
    obtain ⟨setting?, hline, hrest⟩ := readLines_cons_eq_ok h
    exact List.forall_mem_cons.mpr ⟨sound_of_readLine hline, ih hrest⟩

/-- Lines that cannot be read fail with the first wrong one among them. -/
theorem readLines_error {failure : Failure} (h : readLines o n lines = .error failure) :
    ∃ before line after problem, lines = before ++ line :: after ∧ (∀ l ∈ before, Sound l)
      ∧ Fault line problem ∧ failure = .options (n + before.length) problem := by
  induction lines generalizing o n with
  | nil => cases h
  | cons line rest ih =>
    rw [readLines] at h
    cases hline : readLine line with
    | error problem =>
      rw [hline, Except.error.injEq] at h
      exact ⟨[], line, rest, problem, rfl, nofun, fault_of_readLine hline, h.symm⟩
    | ok setting? =>
      rw [hline] at h
      obtain ⟨before, bad, after, problem, rfl, hsound, hfault, rfl⟩ := ih h
      refine ⟨line :: before, bad, after, problem, rfl, ?_, hfault, ?_⟩
      · exact List.forall_mem_cons.mpr ⟨sound_of_readLine hline, hsound⟩
      · rw [List.length_cons, Nat.add_right_comm, Nat.add_assoc]

/-- Lines are read when none of them is wrong. -/
theorem readLines_ok_iff : (∃ o', readLines o n lines = .ok o') ↔ ∀ line ∈ lines, Sound line := by
  constructor
  · rintro ⟨o', h⟩
    exact sound_of_readLines h
  · intro hsound
    cases hread : readLines o n lines with
    | ok o' => exact ⟨o', rfl⟩
    | error failure =>
      -- A failure would come from a wrong line.
      obtain ⟨before, line, after, problem, rfl, -, hfault, -⟩ := readLines_error hread
      have hmem : line ∈ before ++ line :: after := List.mem_append_right before List.mem_cons_self
      exact absurd (hsound line hmem) hfault.not_sound

/-! ## The last line of a field -/

/-- The lines with the key of a field. -/
def Field.linesOf (f : Field) (lines : List (List Char)) : List (List Char) :=
  lines.filter (f.NamedBy ·)

/-- A field has the value from the last line with its key, and the one it started with where no line
has its key. -/
def Field.Ends (f : Field) (start : f.kind.Value) (lines : List (List Char)) (v : f.kind.Value) :
    Prop :=
  match (f.linesOf lines).getLast? with
  | some line => f.SetBy line v
  | none => v = start

variable {start mid v v' : f.kind.Value}

theorem Field.SetBy.namedBy (h : f.SetBy line v) : f.NamedBy line :=
  h.imp fun _ => And.left

/-- A line gives a field one value at most. -/
theorem Field.SetBy.unique (h : f.SetBy line v) (h' : f.SetBy line v') : v = v' := by
  obtain ⟨text, hline, hv⟩ := h
  obtain ⟨text', hline', hv'⟩ := h'
  obtain ⟨-, rfl⟩ := hline.unique hline'
  have hread := (readSetting_of_means hv).symm.trans (readSetting_of_means hv')
  rw [Except.ok.injEq, Option.some.injEq] at hread
  rw [← get_set_self (o := {}) v, hread, get_set_self]

theorem Field.Ends.unique (h : f.Ends start lines v) (h' : f.Ends start lines v') : v = v' := by
  rw [Field.Ends] at h h'
  cases hlast : (f.linesOf lines).getLast? with
  | none =>
    rw [hlast] at h h'
    exact h.trans h'.symm
  | some line =>
    rw [hlast] at h h'
    exact h.unique h'

/-- Where the first line leads from one value of a field to another, the rest goes on from there. -/
theorem Field.Ends.cons (h : f.SetBy line mid ∨ ¬ f.NamedBy line ∧ mid = start)
    (hrest : f.Ends mid rest v) : f.Ends start (line :: rest) v := by
  rw [Field.Ends] at hrest ⊢
  rcases h with hset | ⟨hother, rfl⟩
  · -- The first line is the last one with the key only if the rest has none.
    have hlines : f.linesOf (line :: rest) = line :: f.linesOf rest :=
      List.filter_cons_of_pos (decide_eq_true hset.namedBy)
    rw [hlines, List.getLast?_cons]
    cases hlast : (f.linesOf rest).getLast? with
    | none =>
      rw [hlast] at hrest
      exact hrest ▸ hset
    | some last =>
      rw [hlast] at hrest
      exact hrest
  · have hlines : f.linesOf (line :: rest) = f.linesOf rest :=
      List.filter_cons_of_neg (by simpa using hother)
    rw [hlines]
    exact hrest

/-- The options that lines lead to have, in each field, what the lines with its key say. -/
theorem readLines_get (h : readLines o n lines = .ok o') (f : Field) :
    f.Ends (o.get f) lines (o'.get f) := by
  induction lines generalizing o n with
  | nil =>
    cases h
    rfl
  | cons line rest ih =>
    obtain ⟨setting?, hline, hrest⟩ := readLines_cons_eq_ok h
    exact .cons (readLine_get hline o f) (ih hrest)

/-- The lines of each key decide, whatever stands between them. -/
theorem readLines_unique {other : List (List Char)} {o₁ o₂ : Options} {m : Nat}
    (h : readLines o n lines = .ok o₁) (hother : readLines o m other = .ok o₂)
    (hsame : ∀ f : Field, f.linesOf lines = f.linesOf other) : o₁ = o₂ := by
  apply get_ext
  intro f
  have hend : f.Ends (o.get f) lines (o₂.get f) := by
    rw [Field.Ends, hsame f]
    exact readLines_get hother f
  exact (readLines_get h f).unique hend

/-! ## The file -/

/-- The lines of a file, each without its line feed. A carriage return before it stays, as white
space at the end of the line. -/
def linesIn (content : String) : List (List Char) := content.toList.splitOn '\n'

theorem splitLines_eq (text : List Char) : splitLines text = text.splitOn '\n' := by
  induction text with
  | nil => rfl
  | cons c rest ih =>
    rw [List.splitOn_eq_splitOnP, List.splitOnP_cons_eq_if_modifyHead, ← List.splitOn_eq_splitOnP,
      ← ih]
    by_cases hc : c = '\n'
    · subst hc
      rfl
    · rw [if_neg (by simpa using hc), splitLines]
      · cases hlines : splitLines rest with
        | nil => exact absurd (ih.symm.trans hlines) (List.splitOn_ne_nil _ _)
        | cons line lines => rfl
      · exact hc

theorem read_eq (content : String) : read content = readLines {} 1 (linesIn content) := by
  rw [read, splitLines_eq, linesIn]

/-- An options file is read exactly when nothing is wrong with any of its lines. Each field then has
the value of the last line with its key, or its default where there is none, so that neither other
keys count nor how the lines of different keys are ordered. What fails is the first wrong line, and
the message gives its number, the lines before it that are skipped counted too. -/
theorem read_linewise (content : String) :
    ((∃ o, read content = .ok o) ↔ ∀ line ∈ linesIn content, Sound line)
      ∧ (∀ o, read content = .ok o →
        ∀ f : Field, f.Ends (get {} f) (linesIn content) (o.get f))
      ∧ (∀ other o o', read content = .ok o → read other = .ok o' →
        (∀ f : Field, f.linesOf (linesIn content) = f.linesOf (linesIn other)) → o = o')
      ∧ ∀ failure, read content = .error failure → ∃ before line after problem,
        linesIn content = before ++ line :: after ∧ (∀ l ∈ before, Sound l) ∧ ¬ Sound line
        ∧ Fault line problem ∧ failure = .options (before.length + 1) problem
        ∧ failure.message = "Configuration error: line " ++ toString (before.length + 1) ++ ": "
          ++ problem.message := by
  simp only [read_eq]
  refine ⟨readLines_ok_iff, ?_, ?_, ?_⟩
  · intro o ho f
    exact readLines_get ho f
  · intro other o o' ho ho' hsame
    exact readLines_unique ho ho' hsame
  · intro failure h
    obtain ⟨before, line, after, problem, hlines, hbefore, hfault, rfl⟩ := readLines_error h
    rw [Nat.add_comm 1]
    exact ⟨before, line, after, problem, hlines, hbefore, hfault.not_sound, hfault, rfl, rfl⟩

/-- The last indent counts, and a key of no field is passed over. -/
example : read "indent = 2\r\n# tabs\nuse_tabs = Yes\ncolour\t= red = green\nindent=+08"
    = .ok { layout := { indent := 8, tabs := true } } := by decide +kernel

/-- Blank lines and comments are counted. -/
example : read "\n# widths\nindent = wide\noffset"
    = .error (.options 3 (.badWidth "indent" "wide")) := by decide +kernel

end Options
end ScriptPress

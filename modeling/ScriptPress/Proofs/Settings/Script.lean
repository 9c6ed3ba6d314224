import ScriptPress.Proofs.Settings.Statement
import ScriptPress.Session

/-! # Settings

A text is read alike whatever the settings for diagnostics are. Whether comments are kept, the name
of the source and the first line show in the comments, in the name and in the lines of what is read,
and the language and the switch for warnings show in the texts and in the deliveries, nowhere else.
-/
namespace ScriptPress

namespace Grammar
variable {v : Framing} {g : Grammar}

theorem Even.step (hg : g.Even v) : (step g).Even v :=
  ⟨frames_statementOf hg, frames_assignmentOf hg, frames_expressionOf hg, frames_unaryOf hg,
    frames_memberOf hg⟩

theorem even_nested (depth : Nat) : (nested depth).Even v := by
  induction depth with
  | zero =>
    exact ⟨fun _ => frames_unexpected, fun _ => frames_unexpected, fun _ => frames_unexpected,
      frames_unexpected, fun _ => frames_unexpected⟩
  | succ depth ih =>
    have hstep := ih.step
    exact ⟨hstep.statement, hstep.assignment, hstep.expression, hstep.unary, hstep.member⟩

end Grammar

/-! ## The name of the source -/

namespace Tree

/-- A tree by the name of a source. -/
def named (source : String) (t : Tree) : Tree := t.put .sourceName (.text source)

end Tree

theorem Properties.putIn_putIn (kind : PropertyKind) (x y : PropertyValue)
    (entries : List (PropertyKind × PropertyValue)) :
    putIn kind y (putIn kind x entries) = putIn kind y entries := by
  induction entries with
  | nil => simp only [putIn, if_pos]
  | cons e entries ih =>
    rw [putIn, putIn]
    split
    · rw [putIn, if_pos rfl]
    · next h => rw [putIn, if_neg h, ih]

theorem Tree.named_named (first second : String) (t : Tree) :
    (t.named first).named second = t.named second := by
  obtain ⟨id, data, children⟩ := t
  simp only [named, put, mapData, Node.put, Properties.put, Properties.putIn_putIn]

theorem Tree.framed_named (v : Framing) (source : String) (t : Tree) :
    (t.named source).framed v = (t.framed v).named source := framed_put t _ rfl

theorem Framing.keeps_without {v : Framing} {before : Nat} {kind : PropertyKind}
    (h : Framing.keeps ⟨before, false⟩ kind = true) : v.keeps kind = true := by
  simp only [keeps, Bool.false_or] at h
  rw [keeps, h, Bool.or_true]

theorem Framing.value_value (v : Framing) (before : Nat) (kind : PropertyKind) (x : PropertyValue) :
    Framing.value ⟨before, false⟩ kind (v.value kind x)
      = Framing.value ⟨v.before + before, false⟩ kind x := by
  cases kind <;> try rfl
  cases x <;> try rfl
  simp [value, Int.add_assoc]

/-- What is seen without comments is the same with and without the comments. -/
theorem Node.framed_framed (v : Framing) (before : Nat) (n : Node) :
    (n.framed v).framed ⟨before, false⟩ = n.framed ⟨v.before + before, false⟩ := by
  have hentries : (n.properties.framed v).framed ⟨before, false⟩
      = n.properties.framed ⟨v.before + before, false⟩ := by
    simp only [Properties.framed, List.filter_map, List.map_map, List.filter_filter]
    refine congrArg Properties.mk ?_
    refine Eq.trans (List.map_congr_left fun e _ => ?_) (congrArg _ (List.filter_congr fun e _ => ?_))
    · exact congrArg (Prod.mk e.1) (Framing.value_value v before e.1 e.2)
    · exact Bool.and_eq_left_iff_imp.mpr Framing.keeps_without
  simp only [framed, hentries, Nat.add_assoc]

namespace Tree

mutual

theorem framed_framed (v : Framing) (before : Nat) : (t : Tree) →
    (t.framed v).framed ⟨before, false⟩ = t.framed ⟨v.before + before, false⟩
  | node id data children => by
    rw [framed_node, framed_node, framed_node, Node.framed_framed, framedAll_framedAll]

theorem framedAll_framedAll (v : Framing) (before : Nat) : (ts : List Tree) →
    framedAll ⟨before, false⟩ (framedAll v ts) = framedAll ⟨v.before + before, false⟩ ts
  | [] => by rw [framedAll, framedAll, framedAll]
  | t :: rest => by
    rw [framedAll, framedAll, framedAll, framed_framed v before t, framedAll_framedAll v before rest]

end

end Tree

/-! ## Whole scripts -/

namespace Grammar
variable {v : Framing} {g : Grammar}

theorem scriptNode_framed (source : String) (line lastLine : Nat) (scope : Scope) :
    (scriptNode source line lastLine scope).framed v
      = scriptNode source (line + v.before) (lastLine + v.before) scope := by
  have hname : v.keeps .sourceName = true := Framing.keeps_fixed rfl
  have hend : v.keeps .endLine = true := by simp [Framing.keeps]
  have hvars : v.keeps .vars = true := Framing.keeps_fixed rfl
  have huses : v.keeps .uses = true := Framing.keeps_fixed rfl
  have hfunctions : v.keeps .functions = true := Framing.keeps_fixed rfl
  simp [scriptNode, Node.script, Node.leaf, Node.put, Node.framed, Properties.framed,
    Properties.put, Properties.putIn, hname, hend, hvars, huses, hfunctions, Framing.value]

/-- Comments and the name are put on the node of a script in any order. -/
theorem withComments_named (comments : List String) (source source' : String)
    (line lastLine : Nat) (scope : Scope) (id : NodeId) (statements : List Tree) :
    withComments .trailingComments comments
        (.node id (scriptNode source' line lastLine scope) statements)
      = (withComments .trailingComments comments
          (.node id (scriptNode source line lastLine scope) statements)).named source' := by
  unfold withComments
  split <;> rfl

theorem frames_script (hg : g.Even v) (source source' : String) (line : Nat) :
    Frames v (fun t => (t.framed v).named source') (g.script source line)
      (g.script source' (line + v.before)) := by
  refine frames_advance.bind fun _ => frames_freshId.bind fun id => ?_
  refine (frames_itemsUntil (fun _ => rfl) (hg.statement true) []).bind fun statements => ?_
  refine frames_takeComments.bind fun comments => frames_get fun s => frames_pure ?_
  rw [framed_withComments (.inr rfl), Tree.framed_node, Tree.framedAll_eq, scriptNode_framed]
  exact withComments_named _ source source' _ _ _ _ _

end Grammar

namespace Script

/-- A script in a frame, by the name of another source. -/
def framed (v : Framing) (source : String) (s : Script) : Script :=
  { s with
    tree := (s.tree.framed v).named source
    source
    comments := v.texts s.comments
    tokens := s.tokens.map (Token.framed v)
    concerns := s.concerns.map fun c => (c.1, c.2 + v.before) }

theorem opening_framed (settings : ReadSettings) (text : String) :
    opening settings text
      = (opening { settings with startLine := 0, keepComments := true } text).framed
          ⟨settings.startLine, settings.keepComments⟩ := by
  obtain ⟨source, startLine, dialect, keepComments⟩ := settings
  cases keepComments <;>
    simp [opening, Grammar.State.framed, Lexer.start, Lexer.framed, Token.framed, Framing.texts]

/-- What is read with some settings is what is read with all comments from line zero, seen with the
settings. -/
theorem read_framed (settings : ReadSettings) (text : String) :
    read settings text
      = match read { settings with startLine := 0, keepComments := true, source := "" } text with
        | .ok s => .ok (s.framed ⟨settings.startLine, settings.keepComments⟩ settings.source)
        | .error d => .error (d.framed ⟨settings.startLine, settings.keepComments⟩) := by
  let v : Framing := ⟨settings.startLine, settings.keepComments⟩
  let plain : ReadSettings := { settings with startLine := 0, keepComments := true, source := "" }
  have hrun := Grammar.frames_script (v := v) (Grammar.even_nested (text.length + 1)) ""
    settings.source 0 (opening plain text)
  have hopening : (opening plain text).framed v = opening settings text :=
    (opening_framed settings text).symm
  rw [hopening, show 0 + v.before = settings.startLine from Nat.zero_add _] at hrun
  simp only [read, StateT.run, hrun]
  rcases (Grammar.nested (text.length + 1)).script "" 0 (opening plain text) with d | ⟨t, s⟩
  · rfl
  · simp only [Grammar.framedOutcome, Grammar.State.tokens_framed]
    rfl

end Script

/-- A tree without its comments and the name of its source, and with lines put before it. -/
def Tree.bare (before : Nat) (t : Tree) : Tree := (t.framed ⟨before, false⟩).named ""

theorem Tree.bare_named (v : Framing) (before : Nat) (source : String) (t : Tree) :
    ((t.framed v).named source).bare before = t.bare (v.before + before) := by
  rw [bare, framed_named, framed_framed, named_named, bare]

namespace Session

/-- Reads a text as a script that begins at a line. -/
def readFrom (s : Session) (keepComments : Bool) (startLine : Nat) (text : String) :
    Outcome Script :=
  match Script.read { s.settings keepComments with startLine } text with
  | .error d => .failed (s.failure d)
  | .ok script => ⟨.ok script, s.deliveries (script.warnings s.locale)⟩

/-- The calls of a session begin at the first line. -/
theorem readWith_eq (s : Session) (keepComments : Bool) (text : String) :
    s.readWith keepComments text
      = if text.isEmpty then .failed .emptyScript else s.readFrom keepComments 1 text := rfl

/-- What a delivery tells of a script with lines put before it, whatever the name of the source and
the language are. -/
def Delivery.told (before : Nat) (d : Delivery) : ListenerId × Concern × Nat :=
  (d.listener, d.warning.concern, d.warning.line + before)

/-- Two results of reading a text from two lines, in two sessions: trees that differ in comments, in
the name of the source and in their lines at most, or one problem, at one place of the text. -/
def SameResult (s s' : Session) (startLine startLine' : Nat) :
    Except Failure Script → Except Failure Script → Prop
  | .ok x, .ok y => x.tree.bare startLine' = y.tree.bare startLine
  | .error f, .error f' => ∃ problem line line', line + startLine' = line' + startLine
      ∧ f = s.failure ⟨line, problem⟩ ∧ f' = s'.failure ⟨line', problem⟩
  | _, _ => False

/-- Two outcomes of reading a text from two lines, in two sessions. -/
structure SameOutcome (s s' : Session) (startLine startLine' : Nat) (o o' : Outcome Script) :
    Prop where
  result : SameResult s s' startLine startLine' o.result o'.result
  told : s.warnings = true → s'.warnings = true →
    o.delivered.map (Delivery.told startLine') = o'.delivered.map (Delivery.told startLine)

/-- Deliveries tell what is of concern to each listener. -/
theorem told_deliveries {s : Session} (hs : s.warnings = true) (script : Script) (before : Nat) :
    (s.deliveries (script.warnings s.locale)).map (Delivery.told before)
      = script.concerns.flatMap fun c => s.listeners.map fun l => (l, c.1, c.2 + before) := by
  rw [deliveries, if_pos hs, Script.warnings, List.flatMap_map, List.map_flatMap]
  simp only [List.map_map]
  rfl

/-- What a session makes of a text, by what is read of it with all comments from line zero. -/
theorem readFrom_eq (s : Session) (keepComments : Bool) (startLine : Nat) (text : String) :
    s.readFrom keepComments startLine text
      = match Script.read ⟨"", 0, s.dialect, true⟩ text with
        | .error d => .failed (s.failure (d.framed ⟨startLine, keepComments⟩))
        | .ok x =>
          ⟨.ok (x.framed ⟨startLine, keepComments⟩ s.source),
            s.deliveries ((x.framed ⟨startLine, keepComments⟩ s.source).warnings s.locale)⟩ := by
  have hread := Script.read_framed ⟨s.source, startLine, s.dialect, keepComments⟩ text
  change (match Script.read ⟨s.source, startLine, s.dialect, keepComments⟩ text with
    | .error d => _ | .ok x => _) = _
  rw [hread]
  dsimp only
  cases Script.read ⟨"", 0, s.dialect, true⟩ text with
  | error d => rfl
  | ok x => rfl

/-- A text is read alike in two sessions that differ in their settings for diagnostics only. -/
theorem readFrom_settings (s : Session) (warnings : Bool) (locale : Locale) (source : String)
    (keepComments keepComments' : Bool) (startLine startLine' : Nat) (text : String) :
    SameOutcome s { s with warnings, locale, source } startLine startLine'
      (s.readFrom keepComments startLine text)
      (readFrom { s with warnings, locale, source } keepComments' startLine' text) := by
  rw [readFrom_eq, readFrom_eq]
  dsimp only
  cases Script.read ⟨"", 0, s.dialect, true⟩ text with
  | error d =>
    refine ⟨⟨d.problem, d.line + startLine, d.line + startLine', ?_, rfl, rfl⟩, fun _ _ => rfl⟩
    exact Nat.add_right_comm _ _ _
  | ok x =>
    refine ⟨?_, fun hs hs' => ?_⟩
    · change ((x.tree.framed _).named _).bare startLine' = ((x.tree.framed _).named _).bare startLine
      rw [Tree.bare_named, Tree.bare_named, Nat.add_comm]
    · rw [told_deliveries hs, told_deliveries hs']
      simp only [Script.framed, List.flatMap_map, Nat.add_right_comm]

/-- A statement without its semicolon, read from two lines, with the comment and without. -/
example :
    (readFrom { warnings := true, listeners := [4] } true 3 "// a\nb++\nc++").delivered.map
        (Delivery.told 9)
      = [(4, .missingSemicolon, 13), (4, .missingSemicolon, 14)]
    ∧ (readFrom { warnings := true, listeners := [4], source := "t.js" } false 9
        "// a\nb++\nc++").delivered.map (Delivery.told 3)
      = [(4, .missingSemicolon, 13), (4, .missingSemicolon, 14)] := by
  decide +kernel

end Session
end ScriptPress

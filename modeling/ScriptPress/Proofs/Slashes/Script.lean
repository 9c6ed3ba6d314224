import ScriptPress.Proofs.Reading.Script
import ScriptPress.Proofs.Settings.Script
import ScriptPress.Proofs.Slashes.Statement

/-! # The slashes of a script

A scan that judges slashes by the tokens before them comes to the tokens and the comments of a
script just where no slash is told wrong by the token before it.
-/
namespace ScriptPress

namespace Grammar
open Sight (Fair Fresh Before Behind Done AtHeader)
variable {lx : Lexer} {g : Grammar}

theorem Minds.step (hg : g.Minds lx) : (step g).Minds lx :=
  ⟨fun top _ => moves_statementOf hg top,
    fun noIn _ => moves_assignmentOf hg noIn,
    fun noIn _ => moves_expressionOf hg noIn,
    fun _ => moves_unaryOf hg,
    fun allowCall _ => moves_memberOf hg allowCall⟩

theorem minds_nested (depth : Nat) : (nested depth).Minds lx := by
  induction depth with
  | zero =>
    exact ⟨fun _ _ => moves_unexpected, fun _ _ => moves_unexpected, fun _ _ => moves_unexpected,
      fun _ => moves_unexpected, fun _ _ => moves_unexpected⟩
  | succ depth ih =>
    have hstep := ih.step
    exact ⟨hstep.statement, hstep.assignment, hstep.expression, hstep.unary, hstep.member⟩

/-- A place before the first token of a text. -/
def Sight.First (lx : Lexer) (v : Sight) : Prop :=
  v.lexer = lx ∧ v.current.tag = .endOfInput ∧ v.taken = [] ∧ v.heard = []

theorem moves_first : Moves (Sight.First lx) advance fun _ => Before lx [] := by
  refine moves_advance fun v t lx' ⟨hlexer, htag, htaken, hheard⟩ hnext => ?_
  have htokens : (v.after t lx').tokens = [] := by simp [Sight.tokens, Sight.after, htag, htaken]
  have hcontext : (v.after t lx').context = {} := by rw [Sight.context, htokens]; rfl
  subst hlexer
  refine ⟨⟨⟨?_, ?_, v.current, [], lx'.comments, ?_, ?_, ?_,
    fun ts hts => ⟨t, lx', hnext, hts⟩⟩, Lexer.next_tag hnext⟩, fun _ => ?_⟩
  · rw [htokens]
    trivial
  · rw [hcontext]
  · rw [htokens, Sight.after, htaken]
    rfl
  · rw [htokens]
    rfl
  · simp [Sight.after, hheard]
  · rw [hcontext]
    rfl

theorem moves_script (hg : g.Minds lx) (source : String) (line : Nat) :
    Moves (Sight.First lx) (g.script source line) fun _ => Before lx [] := by
  refine moves_first.bind fun _ => blind_freshId.moves.bind fun _ => ?_
  refine (moves_statements hg true []).bind fun _ => moves_takeComments.bind fun _ => ?_
  exact moves_get fun s hs => (blind_pure _).moves.here hs

end Grammar

/-- A token wherever its text begins. -/
def Token.unlined (t : Token) : Token := { t with line := 0 }

namespace Script
open SlashReader (Context)
open SlashReader.Context (Along)
variable {settings : ReadSettings} {text : String} {script : Script}

/-- From before the first token of a text, a reading takes tokens in their places, and they are what
the lexer yields up to the end of the text. -/
theorem script_yields {depth : Nat} {tree : Tree} {s : Grammar.State}
    (hrun : (Grammar.nested depth).script settings.source settings.startLine (opening settings text)
      = .ok (tree, s)) :
    Along Context.Fits {} s.tokens
      ∧ ∃ first ts last, (opening settings text).lexer.Yields (ts ++ [last])
        ∧ ts.map Prod.fst = s.tokens ∧ last.1 = s.current ∧ s.current.tag = .endOfInput
        ∧ s.taken.reverse = first :: s.tokens
        ∧ ((ts ++ [last]).flatMap Prod.snd).map Comment.text = s.heard := by
  have hsteady : Grammar.Steady settings.dialect (opening settings text) :=
    ⟨rfl, by simp [opening], rfl, by simp [opening]⟩
  obtain ⟨-, hend⟩ := Grammar.ensures_ok
    (Grammar.script_ends (Grammar.sound_nested settings.dialect _) hsteady rfl) hrun
  obtain ⟨⟨⟨hfits, -, first, read, cs, hfirst, htokens, hheard, hserves⟩, -⟩, -⟩ :=
    Grammar.ensures_ok (Grammar.moves_script (Grammar.minds_nested _) _ _ (opening settings text)
      ⟨rfl, rfl, rfl, rfl⟩) hrun
  exact ⟨hfits, first, read, (s.current, cs), hserves _ (.finish hend), htokens, rfl, hend, hfirst,
    by rw [List.flatMap_append, List.flatMap_singleton]; exact hheard.symm⟩

/-- A reading ends well with the tree of its script and a state that tells the rest. -/
theorem read_run (h : read settings text = .ok script) : ∃ s,
    (Grammar.nested (text.length + 1)).script settings.source settings.startLine
        (opening settings text) = .ok (script.tree, s)
      ∧ s.tokens = script.tokens ∧ s.heard = script.comments := by
  unfold read at h
  dsimp only at h
  cases hrun : (Grammar.nested (text.length + 1)).script settings.source settings.startLine
    (opening settings text) with
  | error d =>
    rw [StateT.run, hrun] at h
    cases h
  | ok r =>
    obtain ⟨tree, s⟩ := r
    rw [StateT.run, hrun] at h
    cases h
    exact ⟨s, rfl, rfl, rfl⟩

/-- The tokens of a script are in their places, and they are what its lexer yields. -/
theorem read_yields (h : read settings text = .ok script) :
    Along Context.Fits {} script.tokens
      ∧ ∃ ts last,
        (Lexer.start text settings.dialect settings.startLine settings.keepComments).Yields
          (ts ++ [last]) ∧ ts.map Prod.fst = script.tokens ∧ last.1.tag = .endOfInput
        ∧ ((ts ++ [last]).flatMap Prod.snd).map Comment.text = script.comments := by
  obtain ⟨s, hrun, htokens, hheard⟩ := read_run h
  obtain ⟨hfits, -, ts, last, hyields, hts, hlast, hend, -, hcomments⟩ := script_yields hrun
  rw [← htokens, ← hheard]
  exact ⟨hfits, ts, last, hyields, hts, hlast ▸ hend, hcomments⟩

/-! ## The settings of a reading -/

theorem core_framed (v : Framing) (n : Node) : (n.framed v).core = n.core := by
  have hflag : (n.framed v).properties.flag .postfixForm = n.properties.flag .postfixForm := by
    rw [Properties.flag, Properties.flag, ← Properties.get?_framed (v := v) n.properties rfl]
    rfl
  rw [Node.core, hflag]
  rfl

theorem outline_framed (v : Framing) (t : Tree) : (t.framed v).outline = t.outline := by
  induction t using Tree.induction with
  | node id data children ih =>
    rw [Tree.framed_node, Tree.outline_node, Tree.outline_node, core_framed, Tree.framedAll_eq,
      List.map_map]
    exact congrArg _ (List.map_congr_left ih)

theorem outline_named (source : String) (t : Tree) : (t.named source).outline = t.outline := by
  obtain ⟨id, data, children⟩ := t
  have hcore : (data.put .sourceName (.text source)).core = data.core :=
    (Node.agrees_put rfl).core
  rw [Tree.outline_node, ← hcore, ← Tree.outline_node]
  rfl

/-- With other settings, a text of the same dialect is read as a script of the same outline, with
tokens at the same places. Its comments are kept or not. -/
theorem read_again (h : read settings text = .ok script) (settings' : ReadSettings)
    (hdialect : settings'.dialect = settings.dialect) : ∃ script',
      read settings' text = .ok script' ∧ script'.tree.outline = script.tree.outline
      ∧ script'.tokens.map Token.unlined = script.tokens.map Token.unlined
      ∧ (settings.keepComments = true →
        script'.comments = if settings'.keepComments then script.comments else []) := by
  have hframe := read_framed settings' text
  rw [read_framed] at h
  rw [hdialect] at hframe
  split at h
  · next plain hplain =>
    obtain rfl := Except.ok.inj h
    rw [hplain] at hframe
    refine ⟨_, hframe, ?_, ?_, fun hkeep => ?_⟩
    · simp only [framed, outline_named, outline_framed]
    · simp only [framed, List.map_map]
      rfl
    · simp only [framed, Framing.texts, hkeep, if_true]
  · cases h

theorem syms_of_unlined {ts ts' : List Token}
    (h : ts'.map Token.unlined = ts.map Token.unlined) :
    ts'.map Token.sym = ts.map Token.sym := by
  have hsyms := congrArg (List.map Token.sym) h
  rwa [List.map_map, List.map_map] at hsyms

/-! ## The scan -/

open CommentRemoval (scan)
open SlashReader.Context (Judges)

/-- A scan comes to the tokens of a script and to the end of the text, and to the comments of the
script where it has its comments. -/
structure ScannedAs (script : Script) (keepComments : Bool) (stream : TokenStream) : Prop where
  failure : stream.failure = none
  tokens : ∃ last, last.tag = .endOfInput ∧ stream.tokens.map (Token.unlined ∘ Prod.fst)
    = script.tokens.map Token.unlined ++ [last]
  comments : keepComments = true → stream.comments.map Comment.text = script.comments

theorem judges_iff (h : read settings text = .ok script) :
    Along (Judges settings.dialect) {} script.tokens
      ↔ Context.misled settings.dialect {} script.tokens = false := by
  obtain ⟨hfits, ts, last, ⟨t, lx, hnext, hserves⟩, htokens, -⟩ := read_yields h
  refine Context.along_judges_iff (fun h => by cases h) hfits fun t ht htag => ?_
  have hhas := hserves.hasRegExpLiterals (Lexer.next_read hnext).like.1
    fun htag => absurd htag (Lexer.next_tag hnext)
  rw [← htokens] at ht
  obtain ⟨p, hp, rfl⟩ := List.mem_map.mp ht
  exact hhas p (List.mem_append_left _ hp) htag

/-- Where no slash is told wrong, a scan goes through a text as the reading from the first line does
that keeps the comments. -/
theorem scan_read (h : read settings text = .ok script) (hline : settings.startLine = 1)
    (hkeep : settings.keepComments = true)
    (hright : Context.misled settings.dialect {} script.tokens = false) :
    (scan text settings.dialect).failure = none
      ∧ (∃ last, last.tag = .endOfInput
        ∧ (scan text settings.dialect).tokens.map Prod.fst = script.tokens ++ [last])
      ∧ (scan text settings.dialect).comments.map Comment.text = script.comments := by
  have hjudges := (judges_iff h).mpr hright
  obtain ⟨-, ts, last, hyields, htokens, hend, hcomments⟩ := read_yields h
  rw [hline, hkeep] at hyields
  have hall : Along (Judges settings.dialect) {} ((ts ++ [last]).map Prod.fst) := by
    rw [List.map_append, htokens]
    exact (Context.along_judges_end hend).mpr hjudges
  obtain ⟨hstream, hfailure⟩ := TokenStream.scan_yields hyields hall
  refine ⟨hfailure, ⟨last.1, hend, ?_⟩, ?_⟩
  · rw [hstream, List.map_append, htokens]
    rfl
  · rw [TokenStream.comments, hstream, hcomments]

/-- A scan comes to the tokens and the comments of a script just where none of the slashes is told
wrong by the token before it. -/
theorem scannedAs_iff (h : read settings text = .ok script) :
    script.ScannedAs settings.keepComments (scan text settings.dialect)
      ↔ Context.misled settings.dialect {} script.tokens = false := by
  obtain ⟨plain, hplain, -, htokens, hcomments⟩ :=
    read_again h ⟨"", 1, settings.dialect, true⟩ rfl
  rw [← Context.misled_alike (Context.Alike.refl {}) (syms_of_unlined htokens)]
  constructor
  · rintro ⟨-, ⟨last, -, hscan⟩, -⟩
    have hjudges : Along (Judges settings.dialect) {}
        ((scan text settings.dialect).tokens.map Prod.fst) := TokenStream.readFrom_judges _ _ _
    have hsyms : (plain.tokens ++ [last]).map Token.sym
        = ((scan text settings.dialect).tokens.map Prod.fst).map Token.sym := by
      have hscan' := congrArg (List.map Token.sym) hscan
      rw [← htokens, List.map_append, List.map_map, List.map_map] at hscan'
      rw [List.map_append, List.map_map]
      exact hscan'.symm
    have hall : Along (Judges settings.dialect) {} (plain.tokens ++ [last]) :=
      hjudges.alike (Context.Alike.refl {}) hsyms
    exact (judges_iff hplain).mp (Context.along_concat.mp hall).1
  · intro hright
    obtain ⟨hfailure, ⟨last, hend, hscan⟩, hsame⟩ := scan_read hplain rfl rfl hright
    refine ⟨hfailure, ⟨last.unlined, hend, ?_⟩, fun hkeep => ?_⟩
    · rw [← htokens, ← List.map_map, hscan, List.map_append]
      rfl
    · rw [hsame, hcomments hkeep, if_pos rfl]

end Script
end ScriptPress

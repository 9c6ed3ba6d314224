import Mathlib
import ScriptPress.Session
import ScriptPress.Proofs.Reading.Script
import ScriptPress.Proofs.Rereading.Script

/-! # Round trips

A script that was written is read to the same script. In compact form it loses its comments and the
breaks within its strings; in expanded form, with whatever layout, it loses its comments only if
these are not written or not kept. Writing a script that was read again makes the same text.
-/
namespace ScriptPress
open Render

namespace Script
variable {settings again : ReadSettings} {text : String} {script : Script} {t : Tree}

/-- What is written of a script is read. -/
theorem read_written (h : IsScript again.dialect t) (o : RenderOptions) :
    ∃ script, read again (Render.script o t) = .ok script
      ∧ (Grammar.tapeOf o again t).Rereads t script.tree
      ∧ script.tree.outline = t.outline.echo o.compact
      ∧ script.comments = (Grammar.tapeOf o again t).recalled t.remarks := by
  have hread := Grammar.script_rereads h o again.source again.startLine
  unfold Grammar.Ensures at hread
  split at hread
  · next tree s hrun =>
    have hread' : read again (Render.script o t) = .ok
        { tree, source := again.source, dialect := again.dialect, comments := s.heard
          tokens := s.tokens, concerns := s.concerns, omitted := s.omitted } := by
      unfold read
      dsimp only
      rw [StateT.run, hrun]
    obtain ⟨hscript, hcomments⟩ := Grammar.read_sound hread'
    refine ⟨_, hread', hread, ?_, ?_⟩
    · exact outline_eq_of_sketch h.flagged hscript.flagged hread.echo
    · rw [hcomments]
      exact hread.remarks
  · exact absurd trivial hread

/-! ## Compact form -/

theorem suffices_compact (x : Grammar.Tape) : x.Suffices .compactForm :=
  ⟨fun _ => rfl, nofun⟩

/-- Compact output is read to the same script without its comments, but for line breaks within
strings, and is written as it was. -/
theorem read_compact (h : read settings text = .ok script)
    (hdialect : again.dialect = settings.dialect) :
    ∃ script', read again (script.render .compactForm) = .ok script'
      ∧ script'.comments = [] ∧ script'.tree.remarks = []
      ∧ script'.tree.outline.map Core.joined = script.tree.outline.map Core.joined
      ∧ script'.render .compactForm = script.render .compactForm := by
  obtain ⟨hscript, -⟩ := Grammar.read_sound h
  rw [← hdialect] at hscript
  obtain ⟨script', hread, hrereads, houtline, hcomments⟩ := read_written hscript .compactForm
  refine ⟨script', hread, hcomments, hrereads.remarks, ?_, ?_⟩
  · rw [houtline, Outline.map_joined_echo]
  · exact (hrereads.drawn _ (suffices_compact _)).write _

/-- A string that goes on over a line break, behind a comment. -/
theorem read_compact_string : ∃ script script',
    read { keepComments := true } "(1).e/*c*/\ns='x\\\ny'" = .ok script
      ∧ script.comments = ["/*c*/"] ∧ script.render .compactForm = "(1).e;s='xy'"
      ∧ read { keepComments := true } "(1).e;s='xy'" = .ok script' ∧ script'.comments = []
      ∧ script'.tree.outline.map Core.joined = script.tree.outline.map Core.joined := by
  have hsample : ((read { keepComments := true } "(1).e/*c*/\ns='x\\\ny'").toOption.map
      fun script => (script.comments, script.render .compactForm))
        = some (["/*c*/"], "(1).e;s='xy'") := by
    cbv
  obtain ⟨script, hread, hsame⟩ := exists_read hsample
  obtain ⟨hcomments, hrender⟩ := Prod.mk.inj hsame
  obtain ⟨script', hread', hnone, -, houtline, -⟩ :=
    @read_compact _ { keepComments := true } _ _ hread rfl
  rw [hrender] at hread'
  exact ⟨script, script', hread, hcomments, hrender, hread', hnone, houtline⟩

/-! ## Expanded form -/

/-- Expanded output is read to the same script, whatever its layout. -/
theorem read_expanded (h : read settings text = .ok script)
    (hdialect : again.dialect = settings.dialect) (layout : Layout) (comments : Bool) :
    ∃ script', read again (script.render (.expanded layout comments)) = .ok script'
      ∧ script'.tree.outline = script.tree.outline
      ∧ script'.render .compactForm = script.render .compactForm := by
  obtain ⟨hscript, -⟩ := Grammar.read_sound h
  rw [← hdialect] at hscript
  obtain ⟨script', hread, hrereads, houtline, -⟩ :=
    read_written hscript (.expanded layout comments)
  refine ⟨script', hread, ?_, ?_⟩
  · rw [houtline]
    exact Outline.echo_false _
  · exact (hrereads.drawn _ (suffices_compact _)).write _

/-- A label and an `else`, each on a line of its own. -/
theorem read_expanded_label : ∃ script script',
    read {} "l:for(;;)if(a)b\nelse break l" = .ok script
      ∧ read {} "l:\nfor (;;)\n  if (a)\n    b;\n  else\n    break l;\n" = .ok script'
      ∧ script'.tree.outline = script.tree.outline := by
  have hsample : ((read {} "l:for(;;)if(a)b\nelse break l").toOption.map
      fun script => script.render (.expanded { indent := 2 } false))
        = some "l:\nfor (;;)\n  if (a)\n    b;\n  else\n    break l;\n" := by
    decide +kernel
  obtain ⟨script, hread, hrender⟩ := exists_read hsample
  obtain ⟨script', hread', houtline, -⟩ :=
    @read_expanded _ {} _ _ hread rfl { indent := 2 } false
  rw [hrender] at hread'
  exact ⟨script, script', hread, hread', houtline⟩

/-- Expanded output with comments has the comments of the script, in their order. -/
theorem read_expanded_comments (h : read settings text = .ok script)
    (hdialect : again.dialect = settings.dialect) (hkeep : again.keepComments = true)
    (layout : Layout) :
    ∃ script', read again (script.render (.expanded layout true)) = .ok script'
      ∧ script'.comments = script.comments := by
  obtain ⟨hscript, hremarks⟩ := Grammar.read_sound h
  rw [← hdialect] at hscript
  obtain ⟨script', hread, -, -, hcomments⟩ := read_written hscript (.expanded layout true)
  refine ⟨script', hread, ?_⟩
  rw [hcomments, hremarks]
  exact if_pos hkeep

/-- A comment in a header comes to stand in front of the statement behind it. -/
theorem read_expanded_comments_header : ∃ script script',
    read { keepComments := true } "if(/*c*/a)b//d" = .ok script
      ∧ read { keepComments := true } "if (a)\n    /*c*/\n    b;\n//d\n" = .ok script'
      ∧ script.comments = ["/*c*/", "//d"] ∧ script'.comments = script.comments := by
  have hsample : ((read { keepComments := true } "if(/*c*/a)b//d").toOption.map
      fun script => (script.comments, script.render (.expanded {} true)))
        = some (["/*c*/", "//d"], "if (a)\n    /*c*/\n    b;\n//d\n") := by
    cbv
  obtain ⟨script, hread, hsame⟩ := exists_read hsample
  obtain ⟨hcomments, hrender⟩ := Prod.mk.inj hsame
  obtain ⟨script', hread', hkept⟩ :=
    @read_expanded_comments _ { keepComments := true } _ _ hread rfl rfl {}
  rw [hrender] at hread'
  exact ⟨script, script', hread, hread', hcomments, hkept⟩

/-- Expanded output with comments is read to a script that is written as it was. -/
theorem read_formatted (h : read settings text = .ok script)
    (hdialect : again.dialect = settings.dialect) (hkeep : again.keepComments = true)
    (layout : Layout) :
    ∃ script', read again (script.render (.expanded layout true)) = .ok script'
      ∧ script'.render (.expanded layout true) = script.render (.expanded layout true) := by
  obtain ⟨hscript, -⟩ := Grammar.read_sound h
  rw [← hdialect] at hscript
  obtain ⟨script', hread, hrereads, -, -⟩ := read_written hscript (.expanded layout true)
  have hsuffices : (Grammar.tapeOf (.expanded layout true) again script.tree).Suffices
      (.expanded layout true) := ⟨nofun, fun _ => ⟨hkeep, rfl⟩⟩
  exact ⟨script', hread, (hrereads.drawn _ hsuffices).write _⟩

/-- Comments in front of a clause and at the end of a switch. -/
theorem read_formatted_switch : ∃ script script',
    read { keepComments := true } "switch(a)\x7b/*c*/default:f()//d\n\x7d" = .ok script
      ∧ read { keepComments := true } (script.render (.expanded {} true)) = .ok script'
      ∧ script'.render (.expanded {} true) = script.render (.expanded {} true)
      ∧ script.render (.expanded {} true)
        = "switch (a) \x7b\n    /*c*/\n  default:\n    f();\n    //d\n\x7d\n" := by
  have hsample : ((read { keepComments := true }
      "switch(a)\x7b/*c*/default:f()//d\n\x7d").toOption.map
      fun script => script.render (.expanded {} true))
        = some "switch (a) \x7b\n    /*c*/\n  default:\n    f();\n    //d\n\x7d\n" := by
    cbv
  obtain ⟨script, hread, hrender⟩ := exists_read hsample
  obtain ⟨script', hread', hsame⟩ :=
    @read_formatted _ { keepComments := true } _ _ hread rfl rfl {}
  exact ⟨script, script', hread, hread', hsame, hrender⟩

end Script
end ScriptPress

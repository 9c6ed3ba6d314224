import ScriptPress.Proofs.Removal.Serving

/-! # Removing comments twice

A text that comments were removed from has none left, with one exception. A line break inside a
block comment does not count for `-->`, which opens a comment on a line where no token has begun;
the line break left in its place does.
-/
namespace ScriptPress
namespace CommentRemoval
open SlashReader (Context)
open SlashReader.Context (Along Judges)
variable {d : Dialect} {seen : Context}

/-- A token that a line ended in front of begins with `-->`, so the line ended in a comment. -/
def Exposes (text : String) (d : Dialect) : Prop :=
  ∃ t ∈ (scan text d).tokens.map Prod.fst, t.newlineBefore = true
    ∧ "-->".toList <+: (splitAtByte t.start text.toList).2

theorem Reads.bare {fresh : Bool} {offset : Nat} {text whole before : List Char}
    {lead : List Gap.Piece} {cells : List Cell} {comments : List Comment}
    (h : Reads d seen fresh offset text lead cells comments) (hwhole : whole = before ++ text)
    (hbefore : Text.byteLength before = offset)
    (hno : ∀ t ∈ cells.map Cell.token, t.newlineBefore = true →
      ¬ "-->".toList <+: (splitAtByte t.start whole).2) :
    Bare cells := by
  induction h generalizing before with
  | finish => trivial
  | @token _ _ _ text lead t slice rest gap cells _ _ hscan hne _ hstart hstop hbreaks hmore ih =>
    obtain ⟨hthis, hcells⟩ := List.forall_mem_cons.mp hno
    have hsplit : whole = before ++ pieceText lead ++ (slice ++ rest) := by
      rw [hwhole, ← pieceText_scanFrom hscan, List.append_assoc]
    have hstart' : t.start = Text.byteLength (before ++ pieceText lead) + 0 := by
      rw [hstart, Part.byteLength_append, hbefore, Nat.add_zero]
    refine ⟨fun hbreak => ?_, @ih (before ++ pieceText lead ++ slice) ?_ ?_ hcells⟩
    · have hsuffix := hthis hbreak
      rwa [hsplit, hstart', splitAtByte_append, splitAtByte_zero, hmore.text_eq] at hsuffix
    · rw [hsplit, List.append_assoc _ slice]
    · rw [Part.byteLength_append, hstop, hstart', Nat.add_zero]

/-- Comment removal is complete, and changes nothing when it is done again, unless a line break in a
comment kept a token from being one. -/
theorem removeCommentsByTokens_again {text out : String} {d : Dialect}
    (h : removeCommentsByTokens text d = .ok out) (hno : ¬ Exposes text d) :
    (scan out d).comments = [] ∧ removeCommentsByTokens out d = .ok out := by
  obtain ⟨lead, cells, eof, blank, spans, hreads, htokens, heof, hof, hout, hlead, hblank,
    hparts⟩ := exists_removal h
  have hbare : Bare cells := hreads.bare (List.nil_append _).symm rfl fun t ht hbreak harrow =>
    hno ⟨t, by rw [htokens]; exact List.mem_append_left _ ht, hbreak, harrow⟩
  obtain ⟨last, hlast⟩ : ∃ last : Token, last.sym = ⟨.endOfInput, none, none⟩ :=
    ⟨⟨.endOfInput, none, none, 1, 0, 0, true⟩, rfl⟩
  obtain ⟨ts, hyields, hmatched⟩ := hreads.serves (Lexer.start out d 1 true) hof hbare hblank hparts
    rfl rfl hout hlead (fun hfresh => by cases hfresh) hlast
  have hscan : Along (Judges d) {} (cells.map Cell.token ++ [eof]) :=
    htokens ▸ TokenStream.readFrom_judges _ _ _
  have hcells := (Context.along_judges_end heof).mp hscan
  have hjudges : Along (Judges d) {} (cells.map Cell.token ++ [last]) :=
    (Context.along_judges_end (congrArg Sym.tag hlast)).mpr hcells
  obtain ⟨hstream, hok⟩ := TokenStream.scan_yields hyields (hjudges.alike (.refl {}) hmatched.syms)
  have hcomments : (scan out d).comments = [] := by
    rw [TokenStream.comments, hstream, hmatched.comments]
  refine ⟨hcomments, ?_⟩
  rw [removeCommentsByTokens]
  simp only [hok, hcomments, without, List.isEmpty_nil, if_true, String.ofList_toList]

/-- A line that ends in a comment, in front of a decrement. -/
theorem removeCommentsByTokens_again_decrement :
    removeCommentsByTokens "a /* b\n*/ -- // c\nd" .v13 = .ok "a\n --\nd"
      ∧ ¬ Exposes "a /* b\n*/ -- // c\nd" .v13
      ∧ (scan "a\n --\nd" .v13).comments = []
      ∧ removeCommentsByTokens "a\n --\nd" .v13 = .ok "a\n --\nd" := by
  have h : removeCommentsByTokens "a /* b\n*/ -- // c\nd" .v13 = .ok "a\n --\nd" := by rfl
  have hno : ¬ Exposes "a /* b\n*/ -- // c\nd" .v13 := by
    unfold Exposes
    decide +kernel
  exact ⟨h, hno, removeCommentsByTokens_again h hno⟩

/-- A line break inside a comment keeps `-->` from opening one; the line break in the comment's
place does not. -/
theorem removeCommentsByTokens_exposed :
    removeCommentsByTokens "a/*\n*/-->b" .v13 = .ok "a\n-->b"
      ∧ removeCommentsByTokens "a\n-->b" .v13 = .ok "a\n"
      ∧ ¬ ∀ text out, removeCommentsByTokens text .v13 = .ok out →
        removeCommentsByTokens out .v13 = .ok out := by
  have hfirst : removeCommentsByTokens "a/*\n*/-->b" .v13 = .ok "a\n-->b" := by rfl
  have hsecond : removeCommentsByTokens "a\n-->b" .v13 = .ok "a\n" := by rfl
  refine ⟨hfirst, hsecond, fun hall => ?_⟩
  have hsame := hall _ _ hfirst
  rw [hsecond] at hsame
  exact absurd hsame (by decide)

end CommentRemoval
end ScriptPress

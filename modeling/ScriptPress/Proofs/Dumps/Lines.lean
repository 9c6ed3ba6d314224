import ScriptPress.Proofs.Dumps.Plain
import ScriptPress.Proofs.Printing.Signs

/-! # Lines of dumps

A line of a dump tells the type of a node by its first word, and the type tells what may follow: a
datum, the text of a literal or a name, or the head of a function. Every part of a line ends by
itself, also the text of a string with line breaks in it, so that the line gives away the node and
where the next line begins.
-/
namespace ScriptPress
open Lexer

/-! ## Parts that end by themselves -/

section
variable {xs ys rest rest' : List Char}

/-- Characters of one kind up to the first one of another kind. -/
theorem span_unique {p : Char → Bool} (hx : ∀ c ∈ xs, p c = true) (hy : ∀ c ∈ ys, p c = true)
    (hr : Literal.Ends p rest) (hr' : Literal.Ends p rest') (heq : xs ++ rest = ys ++ rest') :
    xs = ys ∧ rest = rest' := by
  have htaken : xs = ys := by
    have htake := congrArg (List.takeWhile p) heq
    rwa [Literal.takeWhile_append_of_ends hr, Literal.takeWhile_append_of_ends hr',
      Literal.takeWhile_eq_self hx, Literal.takeWhile_eq_self hy] at htake
  subst htaken
  exact ⟨rfl, List.append_cancel_left heq⟩

variable {d : Dialect} {s s' : Sym}

theorem IsLexeme.unique (h : IsLexeme d xs s) (h' : IsLexeme d ys s')
    (hr : ∀ c ∈ rest.head?, glues xs c = false) (hr' : ∀ c ∈ rest'.head?, glues ys c = false)
    (heq : xs ++ rest = ys ++ rest') : xs = ys ∧ rest = rest' := by
  obtain ⟨c, hc, hl⟩ := h.append hr
  obtain ⟨c', hc', hl'⟩ := h'.append hr'
  have hsame : c = c' := by
    have hhead := congrArg List.head? heq
    rw [head_append hc, head_append hc'] at hhead
    exact Option.some.inj hhead
  subst hsame
  rw [heq, hl', Except.ok.injEq] at hl
  exact ⟨(congrArg Lexeme.taken hl).symm, (congrArg Lexeme.rest hl).symm⟩

theorem IsPattern.unique (h : IsPattern d xs) (h' : IsPattern d ys)
    (hr : Literal.Ends Text.isIdentPart rest) (hr' : Literal.Ends Text.isIdentPart rest')
    (heq : xs ++ rest = ys ++ rest') : xs = ys ∧ rest = rest' := by
  obtain ⟨-, body, rfl, -, hbody⟩ := h
  obtain ⟨-, body', rfl, -, hbody'⟩ := h'
  obtain ⟨-, -, -, hall⟩ := Literal.regExp_token hbody
  obtain ⟨-, -, -, hall'⟩ := Literal.regExp_token hbody'
  rw [List.cons_append, List.cons_append, List.cons.injEq] at heq
  have hscan := hall rest hr
  rw [heq.2, hall' rest' hr', Scan.token.injEq] at hscan
  exact ⟨by rw [hscan.1], hscan.2.symm⟩

/-- Tokens of one kind, before texts that do not go on with them. -/
theorem Written.Genuine.unique {t t' : Written} (h : t.Genuine d) (h' : t'.Genuine d)
    (hk : t.kind = t'.kind) (hr : ∀ c ∈ rest.head?, t.glues c = false)
    (hr' : ∀ c ∈ rest'.head?, t'.glues c = false) (heq : t.text ++ rest = t'.text ++ rest') :
    t.text = t'.text ∧ rest = rest' := by
  obtain ⟨kind, text⟩ := t
  obtain ⟨kind', text'⟩ := t'
  obtain rfl : kind = kind' := hk
  cases kind with
  | regExp => exact IsPattern.unique h h' hr hr' heq
  | plain => exact IsLexeme.unique h h' hr hr' heq
  | number => exact IsLexeme.unique h h' hr hr' heq

end

/-! ## Words of a line -/

namespace Tag

/-- The tags of literals and names, which have a text. -/
def hasText : Tag → Bool
  | .identifier | .number | .string | .regExp => true
  | _ => false

theorem ofDumpName?_dumpName (t : Tag) : ofDumpName? t.dumpName = some t := by
  cases t <;> decide

theorem dumpName_injective {t t' : Tag} (h : t.dumpName = t'.dumpName) : t = t' := by
  have hfound := ofDumpName?_dumpName t
  rw [h, ofDumpName?_dumpName] at hfound
  exact (Option.some.inj hfound).symm

/-- The characters that the words of a line are made of. -/
def inWord (c : Char) : Bool := c != ' ' && c != '\n'

theorem dumpName_word (t : Tag) :
    t.dumpName.toList ≠ [] ∧ ∀ c ∈ t.dumpName.toList, inWord c = true := by
  have hchecked : (!t.dumpName.toList.isEmpty && t.dumpName.toList.all inWord) = true := by
    cases t <;> decide
  simpa using hchecked

/-- The tag is read off the words of a line. -/
theorem dumpName_unique {t t' : Tag} {rest rest' : List Char} (hr : Literal.Ends inWord rest)
    (hr' : Literal.Ends inWord rest')
    (heq : t.dumpName.toList ++ rest = t'.dumpName.toList ++ rest') : t = t' ∧ rest = rest' := by
  obtain ⟨hname, hrest⟩ := span_unique (dumpName_word t).2 (dumpName_word t').2 hr hr' heq
  exact ⟨dumpName_injective (String.toList_inj.mp hname), hrest⟩

end Tag

/-- The datum of a line behind its tag. -/
def datumText (datum : Option Tag) : List Char :=
  datum.elim [] fun d => ' ' :: d.dumpName.toList

theorem datumText_unique {datum datum' : Option Tag} {rest rest' : List Char}
    (heq : datumText datum ++ '\n' :: rest = datumText datum' ++ '\n' :: rest') :
    datum = datum' ∧ rest = rest' := by
  cases datum with
  | none =>
    cases datum' with
    | none => exact ⟨rfl, (List.cons.inj heq).2⟩
    | some t' => cases (List.cons.inj heq).1
  | some t =>
    cases datum' with
    | none => cases (List.cons.inj heq).1
    | some t' =>
      obtain ⟨ht, hrest⟩ := Tag.dumpName_unique (Literal.ends_cons.mpr rfl)
        (Literal.ends_cons.mpr rfl) (List.cons.inj heq).2
      exact ⟨by rw [ht], (List.cons.inj hrest).2⟩

/-! ## Heads of functions -/

section
variable {d : Dialect} {name name' : String} {names names' : List String} {c : Char}
  {rest rest' : List Char}

/-- What can stand behind a name in the head of a function. -/
def closers : List Char := ['(', ',', ')']

theorem closers_end : ∀ c ∈ closers, Literal.wordGoesOn c = false :=
  Literal.forall_chars (by decide)

theorem name_unique (h : IsName d name) (h' : IsName d name')
    (hr : ∀ c ∈ rest.head?, c ∈ closers) (hr' : ∀ c ∈ rest'.head?, c ∈ closers)
    (heq : name.toList ++ rest = name'.toList ++ rest') : name = name' ∧ rest = rest' := by
  have hglues : ∀ {name : String}, IsName d name → ∀ c ∈ closers, glues name.toList c = false := by
    intro name h c hc
    obtain ⟨hn, hw⟩ := isName_opens h
    rw [glues, hn, hw]
    exact closers_end c hc
  obtain ⟨hname, hrest⟩ := IsLexeme.unique h h' (fun c hc => hglues h c (hr c hc))
    (fun c hc => hglues h' c (hr' c hc)) heq
  exact ⟨String.toList_inj.mp hname, hrest⟩

/-- A name begins with none of the characters that can stand behind one. -/
theorem name_ne_closer (h : IsName d name) (hc : c ∈ closers) :
    name.toList ++ rest ≠ c :: rest' := by
  intro heq
  obtain ⟨-, hw⟩ := isName_opens h
  cases hname : name.toList with
  | nil => simp [opensWord, hname] at hw
  | cons first more =>
    rw [hname, List.cons_append, List.cons.injEq] at heq
    have hgoes : Literal.wordGoesOn first = true := by
      simp only [opensWord, hname, List.head?_cons, Option.any_some, Bool.or_eq_true] at hw
      rcases hw with hw | hw <;> simp [Literal.wordGoesOn, Text.isIdentPart, hw]
    rw [heq.1, closers_end c hc] at hgoes
    cases hgoes

/-- What stands behind a name that other names follow, up to a text behind them all. -/
def behindName (names : List String) (text : List Char) : List Char :=
  if names.isEmpty then text else ',' :: ((",".intercalate names).toList ++ text)

theorem intercalate_cons (name : String) (names : List String) (text : List Char) :
    (",".intercalate (name :: names)).toList ++ text = name.toList ++ behindName names text := by
  cases names with
  | nil => simp [behindName]
  | cons next names =>
    rw [String.toList_intercalate, List.map_cons, List.map_cons, List.intercalate_cons_cons,
      ← List.map_cons, ← String.toList_intercalate]
    simp [behindName]

theorem behindName_closes (names : List String) :
    ∀ c ∈ (behindName names (')' :: rest)).head?, c ∈ closers := by
  cases names <;> simp [behindName, closers]

/-- Names with commas between them and a bracket behind. -/
theorem names_unique (h : ∀ name ∈ names, IsName d name) (h' : ∀ name ∈ names', IsName d name)
    (heq : (",".intercalate names).toList ++ ')' :: rest
      = (",".intercalate names').toList ++ ')' :: rest') : names = names' ∧ rest = rest' := by
  induction names generalizing names' with
  | nil =>
    cases names' with
    | nil => exact ⟨rfl, (List.cons.inj heq).2⟩
    | cons name' names' =>
      rw [intercalate_cons name'] at heq
      exact absurd heq.symm (name_ne_closer (h' name' (by simp)) (by decide))
  | cons name names ih =>
    cases names' with
    | nil =>
      rw [intercalate_cons name] at heq
      exact absurd heq (name_ne_closer (h name (by simp)) (by decide))
    | cons name' names' =>
      rw [intercalate_cons name, intercalate_cons name'] at heq
      obtain ⟨rfl, hbehind⟩ := name_unique (h name (by simp)) (h' name' (by simp))
        (behindName_closes names) (behindName_closes names') heq
      have hmore : names = names' ∧ rest = rest' := by
        cases names with
        | nil =>
          cases names' with
          | nil => exact ⟨rfl, (List.cons.inj hbehind).2⟩
          | cons next' names' => cases (List.cons.inj hbehind).1
        | cons next names =>
          cases names' with
          | nil => cases (List.cons.inj hbehind).1
          | cons next' names' =>
            exact ih (fun n hn => h n (by simp [hn])) (fun n hn => h' n (by simp [hn]))
              (List.cons.inj hbehind).2
      exact ⟨by rw [hmore.1], hmore.2⟩

/-- The head of a function in a line. -/
def headText (name : Option String) (params : List String) : List Char :=
  ' ' :: (name.getD "").toList ++ '(' :: (",".intercalate params).toList ++ [')']

theorem headText_unique {name name' : Option String} {params params' : List String}
    (h : ∀ n ∈ name, IsName d n) (h' : ∀ n ∈ name', IsName d n)
    (hp : ∀ p ∈ params, IsName d p) (hp' : ∀ p ∈ params', IsName d p)
    (heq : headText name params ++ '\n' :: rest = headText name' params' ++ '\n' :: rest') :
    name = name' ∧ params = params' ∧ rest = rest' := by
  simp only [headText, List.cons_append, List.append_assoc, List.cons.injEq, true_and,
    List.nil_append] at heq
  obtain ⟨rfl, hmore⟩ : name = name' ∧ (",".intercalate params).toList ++ ')' :: '\n' :: rest
      = (",".intercalate params').toList ++ ')' :: '\n' :: rest' := by
    cases name with
    | none =>
      cases name' with
      | none => exact ⟨rfl, (List.cons.inj heq).2⟩
      | some n' => exact absurd heq.symm (name_ne_closer (h' n' rfl) (by decide))
    | some n =>
      cases name' with
      | none => exact absurd heq (name_ne_closer (h n rfl) (by decide))
      | some n' =>
        obtain ⟨rfl, hmore⟩ := name_unique (h n rfl) (h' n' rfl) (by simp [closers])
          (by simp [closers]) heq
        exact ⟨rfl, (List.cons.inj hmore).2⟩
  obtain ⟨hparams, hrest⟩ := names_unique hp hp' hmore
  exact ⟨rfl, hparams, (List.cons.inj hrest).2⟩

end

/-! ## Legible nodes -/

/-- The text of a literal or a name, as it was read. -/
def Tag.written (tag : Tag) (s : String) : Written :=
  ⟨if tag = .regExp then .regExp else .plain, s.toList⟩

/-- The payload of a literal or a name. -/
def Tag.payload (tag : Tag) (s : String) : Payload :=
  if tag = .number then .number s else .text s

/-- A node that can be read off its line in a dump. -/
inductive Core.Legible (d : Dialect) : Core → Prop
  | plain {tag datum form} : tag.hasText = false → tag ≠ .kwFunction →
      Legible d { tag := tag, datum := datum, postfixForm := form }
  | text {tag s} : tag.hasText = true → (tag.written s).Genuine d →
      Legible d { tag := tag, payload := tag.payload s }
  | function {f} : (∀ name ∈ f.name, IsName d name) → (∀ name ∈ f.params, IsName d name) →
      Legible d { tag := .kwFunction, payload := .function f }

/-- What stands behind the tag in the line of a node. -/
def Core.details (c : Core) : List Char :=
  datumText c.datum ++ match c.payload with
    | .none => []
    | .number s | .text s => ' ' :: s.toList
    | .function f => headText f.name f.params

theorem Node.dump_eq (n : Node) : n.dump = n.tag.dumpName.toList ++ n.core.details := by
  rw [dump, List.append_assoc]
  rfl

section
variable {d : Dialect} {c c' : Core} {rest rest' : List Char}

theorem Core.details_ends (c : Core) : Literal.Ends Tag.inWord (c.details ++ '\n' :: rest) := by
  obtain ⟨tag, datum, payload, form⟩ := c
  cases datum <;> cases payload <;> exact Literal.ends_cons.mpr rfl

theorem details_text {tag : Tag} {s : String} :
    Core.details { tag := tag, payload := tag.payload s } = ' ' :: (tag.written s).text := by
  unfold Core.details Tag.payload
  split <;> rfl

theorem Core.details_plain {tag : Tag} {datum : Option Tag} {form : Bool} :
    Core.details { tag := tag, datum := datum, postfixForm := form } = datumText datum :=
  List.append_nil _

theorem written_loose {tag : Tag} {s : String} (h : (tag.written s).Genuine d) :
    ∀ c ∈ ('\n' :: rest).head?, (tag.written s).glues c = false := by
  intro c hc
  obtain rfl : '\n' = c := by simpa using hc
  exact h.glues_loose (by decide)

/-- The line of a legible node gives it away, and the next line. -/
theorem Core.Legible.unique (h : c.Legible d) (h' : c'.Legible d)
    (heq : c.tag.dumpName.toList ++ c.details ++ '\n' :: rest
      = c'.tag.dumpName.toList ++ c'.details ++ '\n' :: rest') :
    c.tag = c'.tag ∧ c.datum = c'.datum ∧ c.payload.plain = c'.payload.plain ∧ rest = rest' := by
  rw [List.append_assoc, List.append_assoc] at heq
  obtain ⟨htag, hdetails⟩ := Tag.dumpName_unique c.details_ends c'.details_ends heq
  refine ⟨htag, ?_⟩
  -- the tag tells what kind of line this is
  cases h with
  | @plain tag datum form htext hfunction =>
    cases h' with
    | @plain tag' datum' form' htext' hfunction' =>
      rw [Core.details_plain, Core.details_plain] at hdetails
      obtain ⟨hdatum, hrest⟩ := datumText_unique hdetails
      exact ⟨hdatum, rfl, hrest⟩
    | text htext' => cases htext.symm.trans ((congrArg Tag.hasText htag).trans htext')
    | function => exact absurd htag hfunction
  | @text tag s htext hs =>
    cases h' with
    | plain htext' => cases htext'.symm.trans ((congrArg Tag.hasText htag).symm.trans htext)
    | @text tag' s' htext' hs' =>
      obtain rfl : tag = tag' := htag
      rw [details_text, details_text] at hdetails
      obtain ⟨hsame, hrest⟩ := hs.unique hs' rfl (written_loose hs) (written_loose hs')
        (List.cons.inj hdetails).2
      obtain rfl : s = s' := String.toList_inj.mp hsame
      exact ⟨rfl, rfl, (List.cons.inj hrest).2⟩
    | function => cases htext.symm.trans (congrArg Tag.hasText htag)
  | @function f hname hparams =>
    cases h' with
    | plain _ hfunction' => exact absurd htag.symm hfunction'
    | text htext' => cases htext'.symm.trans (congrArg Tag.hasText htag).symm
    | @function f' hname' hparams' =>
      obtain ⟨hsame, hsames, hrest⟩ := headText_unique hname hname' hparams hparams' hdetails
      exact ⟨rfl, by rw [Payload.plain, Payload.plain, hsame, hsames], hrest⟩

end

/-! ## The nodes of scripts -/

/-- A tree of legible nodes. -/
inductive Tree.Legible (d : Dialect) : Tree → Prop
  | node {id data children} : data.core.Legible d → (∀ t ∈ children, Legible d t) →
      Legible d (.node id data children)

section
variable {d : Dialect} {t : Tree} {id : NodeId} {data : Node} {children : List Tree}

theorem legible_node {core : Core} (h : data.core = core) (hc : core.Legible d)
    (hall : ∀ t ∈ children, t.Legible d) : (Tree.node id data children).Legible d :=
  .node (h ▸ hc) hall

/-- A node with neither a text nor the head of a function. -/
theorem legible_plain {tag : Tag} {datum : Option Tag} {form : Bool}
    (h : data.core = { tag := tag, datum := datum, postfixForm := form })
    (ht : tag.hasText = false ∧ tag ≠ .kwFunction) (hall : ∀ t ∈ children, t.Legible d) :
    (Tree.node id data children).Legible d :=
  legible_node h (.plain ht.1 ht.2) hall

theorem legible_text {tag : Tag} {s : String} {sym : Sym}
    (h : data.core = { tag := tag, payload := tag.payload s }) (ht : tag.hasText = true)
    (hr : tag ≠ .regExp) (hs : IsLexeme d s.toList sym) (hall : ∀ t ∈ children, t.Legible d) :
    (Tree.node id data children).Legible d := by
  have hgenuine : (tag.written s).Genuine d := by
    rw [Tag.written, if_neg hr]
    exact Written.genuine_plain hs
  exact legible_node h (.text ht hgenuine) hall

theorem IsLeaf.legible {core : Core} (h : IsLeaf d core) : core.Legible d := by
  cases h with
  | name h => exact .text rfl (Written.genuine_plain h)
  | number h => exact .text rfl (Written.genuine_plain h)
  | string h => exact .text rfl (Written.genuine_plain h)
  | regExp h => exact .text rfl h
  | primary => exact .plain rfl (by decide)

theorem IsKey.legible (h : IsKey d t) : t.Legible d := by
  cases h with
  | name hdata hs =>
    rcases hs with hs | hs
    · exact legible_text hdata.core rfl (by decide) hs (by simp)
    · exact legible_text hdata.core rfl (by decide) hs (by simp)
  | string hdata hs => exact legible_text hdata.core rfl (by decide) hs (by simp)
  | number hdata hs => exact legible_text hdata.core rfl (by decide) hs (by simp)

theorem IsNamed.legible {ok : String → Prop} {name : String} (h : IsNamed ok name t)
    (hok : ok name → IsName d name ∨ IsReserved d name) : t.Legible d := by
  obtain ⟨hdata, hname⟩ := h
  rcases hok hname with hs | hs
  · exact legible_text hdata.core rfl (by decide) hs (by simp)
  · exact legible_text hdata.core rfl (by decide) hs (by simp)

theorem legible_function {f : FunctionData} {role : FunctionRole} {body : Tree}
    (h : data.core = { tag := .kwFunction, payload := .function f }) (hf : IsFunction d f role body)
    (hbody : body.Legible d) : (Tree.node id data [body]).Legible d :=
  legible_node h (.function hf.name hf.params) (by simpa using hbody)

theorem level_plain {tag : Tag} {level : Nat} (h : tag.binaryPrecedence? = some level) :
    tag.hasText = false ∧ tag ≠ .kwFunction := by
  cases tag <;> first | (cases h; done) | decide

/-- Every node of a well-formed tree is legible. -/
theorem Formed.legible {form : Form} (h : Formed d form t) : t.Legible d := by
  induction h with
  | leaf hdata hleaf => exact legible_node hdata.core hleaf.legible (by simp)
  | object hdata hkeys _ ih =>
    refine legible_plain hdata.core (by decide) fun t ht => ?_
    obtain ⟨p, hp, ht⟩ := List.mem_flatMap.mp ht
    rcases (by simpa using ht : t = p.1 ∨ t = p.2) with rfl | rfl
    · exact (hkeys p hp).legible
    · exact ih p hp
  | function hdata hf _ ih => exact legible_function hdata.core hf ih
  | functionStatement hdata hf _ ih => exact legible_function hdata.core hf ih
  | element _ ih | part _ ih | exprStart _ ih => exact ih
  | declared hdata hname => exact legible_text hdata.core rfl (by decide) hname (by simp)
  | initialised hdata hname _ ih =>
    exact legible_text hdata.core rfl (by decide) hname (by simpa using ih)
  | array hdata _ ih | varStart hdata _ _ ih | block hdata _ _ ih | blockStatement hdata _ ih
  | var hdata _ _ ih | default hdata _ _ ih =>
    exact legible_plain hdata.core (by decide) ih
  | hole hdata | noPart hdata | noStart hdata | empty hdata | «return» hdata =>
    exact legible_plain hdata.core (by decide) (by simp)
  | jump hdata ht =>
    refine legible_plain hdata.core ?_ (by simp)
    rcases ht with rfl | rfl <;> decide
  | step hdata ht _ _ ih =>
    refine legible_plain hdata.core ?_ (by simpa using ih)
    rcases ht with rfl | rfl <;> decide
  | unary hdata _ _ ih | returnValue hdata _ _ ih | throw hdata _ _ ih | exprStatement hdata _ ih
  | «finally» hdata _ _ ih =>
    exact legible_plain hdata.core (by decide) (by simpa using ih)
  | binary hdata hop _ _ ih ih' =>
    obtain ⟨level, hlevel⟩ := hop.level
    exact legible_plain hdata.core (level_plain hlevel) (by simpa using ⟨ih, ih'⟩)
  | assign hdata _ _ _ _ ih ih' | comma hdata _ _ ih ih' | index hdata _ _ ih ih'
  | ifThen hdata _ _ ih ih' | «while» hdata _ _ ih ih' | doWhile hdata _ _ _ ih ih'
  | «with» hdata _ _ ih ih' =>
    exact legible_plain hdata.core (by decide) (by simpa using ⟨ih, ih'⟩)
  | conditional hdata _ _ _ ih ih' ih'' | ifElse hdata _ _ _ _ ih ih' ih''
  | forIn hdata _ _ _ _ ih ih' ih'' =>
    exact legible_plain hdata.core (by decide) (by simpa using ⟨ih, ih', ih''⟩)
  | «for» hdata _ _ _ _ ih ih' ih'' ih₃ =>
    exact legible_plain hdata.core (by decide) (by simpa using ⟨ih, ih', ih'', ih₃⟩)
  | call hdata _ _ ih ih' | construct hdata _ _ ih ih' =>
    exact legible_plain hdata.core (by decide) (by simpa using ⟨ih, ih'⟩)
  | switch hdata _ _ _ _ ih ih' =>
    exact legible_plain hdata.core (by decide) (by simpa using ⟨ih, ih'⟩)
  | case hdata _ _ _ ih ih' =>
    exact legible_plain hdata.core (by decide) (by simpa using ⟨ih, ih'⟩)
  | property hdata _ hname ih =>
    exact legible_plain hdata.core (by decide) (by simpa using ⟨ih, hname.legible fun hok => hok⟩)
  | jumpTo hdata ht _ hname =>
    refine legible_plain hdata.core ?_ (by simpa using hname.legible Or.inl)
    rcases ht with rfl | rfl <;> decide
  | «catch» hdata _ hname _ ih =>
    exact legible_plain hdata.core (by decide) (by simpa using ⟨hname.legible Or.inl, ih⟩)
  | guarded hdata _ _ hname _ _ ih ih' =>
    exact legible_plain hdata.core (by decide) (by simpa using ⟨hname.legible Or.inl, ih, ih'⟩)
  | label hdata hname _ _ ih =>
    exact legible_plain hdata.core (by decide) (by simpa using ⟨hname.legible Or.inl, ih⟩)
  | «try» hdata _ _ _ _ _ _ ih ih' ih'' =>
    refine legible_plain hdata.core (by decide) fun t ht => ?_
    rcases List.mem_cons.mp ht with rfl | ht
    · exact ih
    · exact (List.mem_append.mp ht).elim (ih' t) (ih'' t)

theorem IsScript.legible (h : IsScript d t) : t.Legible d := by
  obtain ⟨hdata, -, hall⟩ := h
  exact legible_plain hdata.core (by decide) fun t ht => (hall t ht).legible

end
end ScriptPress

import ScriptPress.Proofs.Printing.Whole

/-! # The index of functions

The list of a script's functions is put together from what the nodes say of the functions directly
in them. It is the walk over the tree that takes each function when it is met: every function once,
in the order of the text, with the number of the function right around it and the number of
functions around it.
-/
namespace ScriptPress

namespace Tree

/-- The functions in trees, nested ones behind those around them. -/
def functionsIn (ts : List Tree) : List Tree := (preorderAll ts).filter (·.tag == .kwFunction)

/-- The functions around a place, the innermost first. -/
def functionsAround (above : List Tree) : List Tree := above.filter (·.tag == .kwFunction)

theorem functionsIn_append (ts us : List Tree) :
    functionsIn (ts ++ us) = functionsIn ts ++ functionsIn us := by
  rw [functionsIn, preorderAll_append, List.filter_append, functionsIn, functionsIn]

theorem functionsIn_cons (t : Tree) (rest : List Tree) :
    functionsIn (t :: rest) = functionsIn [t] ++ functionsIn rest :=
  functionsIn_append [t] rest

theorem functionsIn_function {t : Tree} (h : t.tag = .kwFunction) :
    functionsIn [t] = t :: functionsIn t.children := by
  rw [functionsIn, preorderAll_singleton, List.filter_cons_of_pos (by simpa using h), functionsIn]

theorem functionsIn_other {t : Tree} (h : t.tag ≠ .kwFunction) :
    functionsIn [t] = functionsIn t.children := by
  rw [functionsIn, preorderAll_singleton, List.filter_cons_of_neg (by simpa using h), functionsIn]

theorem functionsAround_function {t : Tree} (h : t.tag = .kwFunction) (above : List Tree) :
    functionsAround (t :: above) = t :: functionsAround above :=
  List.filter_cons_of_pos (by simpa using h)

theorem functionsAround_other {t : Tree} (h : t.tag ≠ .kwFunction) (above : List Tree) :
    functionsAround (t :: above) = functionsAround above :=
  List.filter_cons_of_neg (by simpa using h)

mutual

/-- The entries of the functions in a tree, numbered from `next` on. -/
def entriesFrom (depth : Nat) (parent? : Option Nat) (next : Nat) : Tree → List FunctionEntry
  | node id data children =>
    match data.function? with
    | some f =>
      { data := f, line := data.line, depth, parent?, tree := node id data children }
        :: entriesAllFrom (depth + 1) (some next) (next + 1) children
    | none => entriesAllFrom depth parent? next children

def entriesAllFrom (depth : Nat) (parent? : Option Nat) (next : Nat) :
    List Tree → List FunctionEntry
  | [] => []
  | t :: rest =>
    entriesFrom depth parent? next t
      ++ entriesAllFrom depth parent? (next + (entriesFrom depth parent? next t).length) rest

end

/-- In trees the functions are the nodes with the data of one. -/
def Marked (ts : List Tree) : Prop :=
  ∀ t ∈ preorderAll ts, t.tag = .kwFunction ↔ t.data.function?.isSome = true

variable {t : Tree} {ts us : List Tree} {depth next : Nat} {parent? : Option Nat}

theorem Marked.left (h : Marked (ts ++ us)) : Marked ts := fun t ht =>
  h t (preorderAll_append ts us ▸ List.mem_append_left _ ht)

theorem Marked.right (h : Marked (ts ++ us)) : Marked us := fun t ht =>
  h t (preorderAll_append ts us ▸ List.mem_append_right _ ht)

theorem Marked.head (h : Marked (t :: ts)) : Marked [t] :=
  have hall : Marked ([t] ++ ts) := h
  hall.left

theorem Marked.tail (h : Marked (t :: ts)) : Marked ts :=
  have hall : Marked ([t] ++ ts) := h
  hall.right

theorem Marked.here (h : Marked [t]) : t.tag = .kwFunction ↔ t.data.function?.isSome = true :=
  h t (preorderAll_singleton t ▸ List.mem_cons_self ..)

theorem Marked.inside (h : Marked [t]) : Marked t.children := fun u hu =>
  h u (preorderAll_singleton t ▸ List.mem_cons_of_mem _ hu)

theorem entriesFrom_function {f : FunctionData} (h : t.data.function? = some f) :
    entriesFrom depth parent? next t = { data := f, line := t.line, depth, parent?, tree := t }
      :: entriesAllFrom (depth + 1) (some next) (next + 1) t.children := by
  obtain ⟨id, data, children⟩ := t
  rw [entriesFrom, show data.function? = some f from h]
  rfl

theorem entriesFrom_other (h : t.data.function? = none) :
    entriesFrom depth parent? next t = entriesAllFrom depth parent? next t.children := by
  obtain ⟨id, data, children⟩ := t
  rw [entriesFrom, show data.function? = none from h]
  rfl

theorem entriesAllFrom_append (ts us : List Tree) : entriesAllFrom depth parent? next (ts ++ us)
    = entriesAllFrom depth parent? next ts
      ++ entriesAllFrom depth parent?
        (next + (entriesAllFrom depth parent? next ts).length) us := by
  induction ts generalizing next with
  | nil => rfl
  | cons t ts ih =>
    rw [List.cons_append, entriesAllFrom, ih, entriesAllFrom, List.append_assoc,
      List.length_append, Nat.add_assoc]

/-- The entries of a tree are among those of the trees around it. -/
theorem entriesAllFrom_child (h : t ∈ ts) (depth next : Nat) (parent? : Option Nat) :
    ∃ before after, entriesAllFrom depth parent? next ts
      = before ++ entriesFrom depth parent? (next + before.length) t ++ after := by
  obtain ⟨left, right, rfl⟩ := List.append_of_mem h
  have hall : entriesAllFrom depth parent? next (left ++ t :: right) = _ :=
    entriesAllFrom_append left (t :: right)
  rw [entriesAllFrom, ← List.append_assoc] at hall
  exact ⟨_, _, hall⟩

theorem entriesAllFrom_singleton (t : Tree) :
    entriesAllFrom depth parent? next [t] = entriesFrom depth parent? next t := by
  rw [entriesAllFrom, entriesAllFrom, List.append_nil]

mutual

/-- The walk takes every function once, in the order of the text. -/
theorem trees_entriesFrom (depth next : Nat) (parent? : Option Nat) : (t : Tree) → Marked [t] →
    (entriesFrom depth parent? next t).map (·.tree) = functionsIn [t]
  | node id data children => fun h => by
    cases hf : data.function? with
    | some f =>
      have htag : (node id data children).tag = .kwFunction := h.here.mpr (by simp [Tree.data, hf])
      rw [entriesFrom_function (t := node id data children) hf, List.map_cons,
        functionsIn_function htag, trees_entriesAllFrom _ _ _ _ h.inside]
    | none =>
      have htag : (node id data children).tag ≠ .kwFunction := fun htag => by
        simpa [Tree.data, hf] using h.here.mp htag
      rw [entriesFrom_other (t := node id data children) hf, functionsIn_other htag,
        trees_entriesAllFrom _ _ _ _ h.inside]

theorem trees_entriesAllFrom (depth next : Nat) (parent? : Option Nat) : (ts : List Tree) →
    Marked ts → (entriesAllFrom depth parent? next ts).map (·.tree) = functionsIn ts
  | [] => fun _ => rfl
  | t :: rest => fun h => by
    rw [entriesAllFrom, List.map_append, trees_entriesFrom _ _ _ t h.head,
      trees_entriesAllFrom _ _ _ rest h.tail, ← functionsIn_append, List.singleton_append]

end

mutual

/-- Only the functions directly in trees start entries of their own. -/
theorem entriesFrom_outer (depth next : Nat) (parent? : Option Nat) : (t : Tree) → Marked [t] →
    entriesFrom depth parent? next t = entriesAllFrom depth parent? next (outerFunctions t)
  | node id data children => fun h => by
    by_cases htag : (node id data children).tag = .kwFunction
    · rw [outerFunctions_function htag, entriesAllFrom_singleton]
    · have hf : (node id data children).data.function? = none := by
        simpa using mt h.here.mpr htag
      rw [outerFunctions_other htag, entriesFrom_other hf]
      exact entriesAllFrom_outer _ _ _ children h.inside

theorem entriesAllFrom_outer (depth next : Nat) (parent? : Option Nat) : (ts : List Tree) →
    Marked ts →
    entriesAllFrom depth parent? next ts = entriesAllFrom depth parent? next (outerFunctionsAll ts)
  | [] => fun _ => rfl
  | t :: rest => fun h => by
    rw [entriesAllFrom, outerFunctionsAll, entriesAllFrom_append,
      ← entriesFrom_outer _ _ _ t h.head, entriesAllFrom_outer _ _ _ rest h.tail]

end

end Tree

/-! ## The list is the walk -/

namespace FunctionIndex
open Tree

/-- The functions directly in trees have the same functions in them as the trees. -/
theorem functionsIn_outer (t : Tree) : functionsIn (outerFunctions t) = functionsIn [t] := by
  induction t using Tree.rec (motive_2 := fun ts =>
    functionsIn (outerFunctionsAll ts) = functionsIn ts) with
  | node id data children ih =>
    by_cases htag : (node id data children).tag = .kwFunction
    · rw [outerFunctions_function htag]
    · rw [outerFunctions_other htag, functionsIn_other htag]
      exact ih
  | nil => rfl
  | cons t rest ih ih' => rw [outerFunctionsAll, functionsIn_append, ih, ih', ← functionsIn_cons]

theorem functionsIn_outerAll (ts : List Tree) :
    functionsIn (outerFunctionsAll ts) = functionsIn ts := by
  induction ts with
  | nil => rfl
  | cons t rest ih =>
    rw [outerFunctionsAll, functionsIn_append, functionsIn_outer, ih, ← functionsIn_cons]

/-- Functions that can be found by their identities, each of which tells those directly in it. -/
structure Listable (nodes fs : List Tree) : Prop where
  found : ∀ f ∈ functionsIn fs, nodes.find? (·.id == f.id) = some f
  told : ∀ f ∈ functionsIn fs, f.data.properties.nodes .functions = directFunctions f.children
  marked : ∀ f ∈ functionsIn fs, f.data.function?.isSome = true ∧ Marked f.children

variable {nodes fs : List Tree} {f : Tree} {fuel depth next : Nat} {parent? : Option Nat}

theorem Listable.of_subset {fs' : List Tree} (h : Listable nodes fs)
    (hin : ∀ u ∈ functionsIn fs', u ∈ functionsIn fs) : Listable nodes fs' :=
  ⟨fun u hu => h.found u (hin u hu), fun u hu => h.told u (hin u hu),
    fun u hu => h.marked u (hin u hu)⟩

/-- A list of functions gives the entries of the walk, when the bound is above their number. -/
theorem collectFrom_eq (h : Listable nodes fs) (hfs : ∀ f ∈ fs, f.tag = .kwFunction)
    (hfuel : (functionsIn fs).length < fuel) :
    collectFrom nodes fuel depth parent? next (fs.map Tree.id)
      = entriesAllFrom depth parent? next fs := by
  induction fuel generalizing fs depth parent? next with
  | zero => omega
  | succ fuel ih =>
    cases fs with
    | nil => rfl
    | cons f rest =>
      obtain ⟨htag, hrest⟩ := List.forall_mem_cons.mp hfs
      have hall : functionsIn (f :: rest) = f :: functionsIn f.children ++ functionsIn rest := by
        rw [functionsIn_cons, functionsIn_function htag]
      have hin : f ∈ functionsIn (f :: rest) := by simp [hall]
      have hlength : (functionsIn f.children).length + (functionsIn rest).length < fuel := by
        simpa [hall] using hfuel
      obtain ⟨hsome, hmarked⟩ := h.marked f hin
      obtain ⟨data, hdata⟩ := Option.isSome_iff_exists.mp hsome
      have hinner : collectFrom nodes fuel (depth + 1) (some next) (next + 1)
          (f.data.properties.nodes .functions)
            = entriesAllFrom (depth + 1) (some next) (next + 1) f.children := by
        rw [h.told f hin, directFunctions, entriesAllFrom_outer _ _ _ _ hmarked]
        refine ih (h.of_subset fun u hu => ?_) (fun u hu => (mem_outerFunctionsAll _ u hu).2) ?_
        · rw [functionsIn_outerAll] at hu
          simp [hall, hu]
        · rw [functionsIn_outerAll]
          omega
      have hbehind : ∀ k, collectFrom nodes fuel depth parent? k (rest.map Tree.id)
          = entriesAllFrom depth parent? k rest := fun k =>
        ih (h.of_subset fun u hu => by simp [hall, hu]) hrest (by omega)
      rw [List.map_cons, collectFrom, h.found f hin]
      dsimp only
      rw [hdata]
      dsimp only
      rw [hinner, hbehind, entriesAllFrom, entriesFrom_function hdata, List.length_cons,
        Nat.add_assoc, Nat.add_comm 1]

end FunctionIndex

/-! ## Places in the tree -/

namespace Tree

/-- The number in a list of entries that a function around a place has, or none when there is no
function around the place. -/
def NumbersAround (entries : List FunctionEntry) (above : List Tree) (parent? : Option Nat) : Prop :=
  match (functionsAround above).head? with
  | none => parent? = none
  | some f => ∃ i, parent? = some i ∧ (entries[i]?).map (·.tree) = some f

variable {root t c : Tree} {above : List Tree}

/-- The entries of a part are those of its place in the whole, one behind the other. -/
theorem Under.segment (h : Under root above t) (hmarked : Marked [root]) :
    ∃ before after parent?, entriesFrom 0 none 0 root
        = before ++ entriesFrom (functionsAround above).length parent? before.length t ++ after
      ∧ NumbersAround (entriesFrom 0 none 0 root) above parent? := by
  induction h with
  | root => exact ⟨[], [], none, (List.append_nil _).symm, rfl⟩
  | @child above t c h hc ih =>
    obtain ⟨before, after, parent?, hall, hparent⟩ := ih
    have hmark := hmarked t h.mem
    by_cases htag : t.tag = .kwFunction
    · obtain ⟨f, hf⟩ := Option.isSome_iff_exists.mp (hmark.mp htag)
      obtain ⟨left, right, hparts⟩ := entriesAllFrom_child hc
        ((functionsAround above).length + 1) (before.length + 1) (some before.length)
      rw [entriesFrom_function hf, hparts] at hall
      rw [functionsAround_function htag, List.length_cons]
      refine ⟨before ++ (⟨f, t.line, (functionsAround above).length, parent?, t⟩ ::  left),
        right ++ after, some before.length, ?_, ?_⟩
      · rw [hall, List.length_append, List.length_cons, Nat.add_right_comm, ← Nat.add_assoc]
        simp only [List.append_assoc, List.cons_append]
      · rw [NumbersAround, functionsAround_function htag]
        exact ⟨before.length, rfl, by simp [hall]⟩
    · have hf : t.data.function? = none := by simpa using mt hmark.mpr htag
      obtain ⟨left, right, hparts⟩ := entriesAllFrom_child hc
        (functionsAround above).length before.length parent?
      rw [entriesFrom_other hf, hparts] at hall
      rw [functionsAround_other htag]
      refine ⟨before ++ left, right ++ after, parent?, ?_, ?_⟩
      · rw [hall, List.length_append]
        simp only [List.append_assoc]
      · rwa [NumbersAround, functionsAround_other htag]

/-- Every function of a tree names the one right around it. -/
theorem Nested.under (hroot : Nested none root) (h : Under root above t) :
    Nested ((functionsAround above).head?.map id) t := by
  induction h with
  | root => exact hroot
  | @child above t c h hc ih =>
    by_cases htag : t.tag = .kwFunction
    · rw [functionsAround_function htag]
      cases ih with
      | function _ _ _ hall => exact hall c hc
      | other hne => exact absurd htag hne
    · rw [functionsAround_other htag]
      exact ih.inside htag c hc

/-- What is below a place of a tree has a place in the tree too. -/
theorem Under.deeper {u : Tree} (h : Under root above t) (hu : u ∈ preorder t) :
    ∃ around, Under root around u := by
  induction t using Tree.rec (motive_2 := fun ts => ∀ above t, Under root above t →
    (∀ c ∈ ts, c ∈ t.children) → u ∈ preorderAll ts → ∃ around, Under root around u)
    generalizing above with
  | node id data children ih =>
    rw [preorder, List.mem_cons] at hu
    rcases hu with rfl | hu
    · exact ⟨above, h⟩
    · exact ih above _ h (fun _ hc => hc) hu
  | nil above t h hall hu => simp [preorderAll] at hu
  | cons c rest ih ih' above t h hall hu =>
    rw [preorderAll, List.mem_append] at hu
    rcases hu with hu | hu
    · exact ih (h.child (hall c (List.mem_cons_self ..))) hu
    · exact ih' above t h (fun c hc => hall c (List.mem_cons_of_mem _ hc)) hu

/-- The functions of a tree in a list: each of them once, those around before those inside and
otherwise in the order of the text, with its depth and the number of the function around it. What
the nodes say of the functions around and inside them agrees with the tree. -/
structure Indexed (root : Tree) (index : FunctionIndex) : Prop where
  functions : index.entries.map (·.tree) = root.preorder.filter (·.tag == .kwFunction)
  distinct : (index.entries.map (·.tree.id)).Nodup
  place : ∀ above t, Under root above t → t.tag = .kwFunction → ∃ e ∈ index.entries, e.tree = t
    ∧ t.data.function? = some e.data ∧ e.line = t.line
    ∧ e.depth = (functionsAround above).length ∧ NumbersAround index.entries above e.parent?
  enclosing : ∀ above t, Under root above t → t.tag = .kwFunction →
    t.data.properties.get? .enclosingFunction
      = (functionsAround above).head?.map fun f => .node f.id
  inside : ∀ t ∈ root.preorder, t.tag = .script ∨ t.tag = .kwFunction →
    t.data.properties.get? .functions = some (.nodes (directFunctions t.children))

end Tree

/-! ## Scripts -/

variable {d : Dialect} {t : Tree}

/-- In a tree that the grammar makes there is no script, and the functions are marked. -/
theorem Made.marks (h : Made d t) :
    t.tag ≠ .script ∧ (t.tag = .kwFunction ↔ t.data.function?.isSome = true) := by
  have hnode : ∀ {id data children core}, t = .node id data children → data.core = core →
      core.tag ≠ .script → (core.tag = .kwFunction ↔ ∃ f, core.payload = .function f) →
      t.tag ≠ .script ∧ (t.tag = .kwFunction ↔ t.data.function?.isSome = true) := by
    rintro id data children core rfl rfl hscript hfunction
    refine ⟨hscript, hfunction.trans ?_⟩
    cases hp : data.payload <;> simp [Node.core, Node.function?, Tree.data, hp]
  cases h with
  | key h =>
    cases h with
    | name hdata | string hdata | number hdata => exact hnode rfl hdata.core (by simp) (by simp)
  | named h =>
    obtain ⟨hdata, -⟩ := h
    exact hnode rfl hdata.core (by simp) (by simp)
  | formed h =>
    induction h with
    | element _ ih | part _ ih | exprStart _ ih => exact ih hnode
    | leaf hdata hleaf => cases hleaf <;> exact hnode rfl hdata.core (by simp) (by simp)
    | step hdata htag =>
      rcases htag with rfl | rfl <;> exact hnode rfl hdata.core (by simp) (by simp)
    | jump hdata htag | jumpTo hdata htag =>
      rcases htag with rfl | rfl <;> exact hnode rfl hdata.core (by simp) (by simp)
    | binary hdata hop =>
      obtain ⟨level, hlevel⟩ := hop.level
      refine hnode rfl hdata.core ?_ ⟨?_, by simp⟩ <;> rintro rfl <;> cases hlevel
    | array hdata | object hdata | unary hdata | assign hdata | conditional hdata
    | comma hdata | call hdata | construct hdata | property hdata | index hdata
    | hole hdata | declared hdata | initialised hdata | noPart hdata | noStart hdata
    | varStart hdata | block hdata | blockStatement hdata | var hdata | empty hdata | ifThen hdata
    | ifElse hdata | «while» hdata | doWhile hdata | «for» hdata | forIn hdata
    | «return» hdata | returnValue hdata | «with» hdata | switch hdata | case hdata
    | default hdata | throw hdata | «try» hdata | «catch» hdata | guarded hdata | «finally» hdata
    | label hdata | exprStatement hdata | function hdata | functionStatement hdata =>
      exact hnode rfl hdata.core (by simp) (by simp)

/-- Every function of a whole tree is found by its identity. -/
theorem Tree.find?_preorder {root t : Tree} (hdistinct : (ids [root]).Nodup)
    (ht : t ∈ preorder root) : root.preorder.find? (·.id == t.id) = some t := by
  have hpre : preorderAll [root] = root.preorder := by
    rw [preorderAll, preorderAll, List.append_nil]
  rw [ids, hpre] at hdistinct
  cases hfind : root.preorder.find? (·.id == t.id) with
  | none => simpa using List.find?_eq_none.mp hfind t ht
  | some u =>
    have hid : u.id = t.id := by simpa using List.find?_some hfind
    rw [List.inj_on_of_nodup_map hdistinct (List.mem_of_find?_eq_some hfind) ht hid]

theorem Tree.Nested.functions {around? : Option NodeId} (h : Tree.Nested around? t)
    (ht : t.tag = .kwFunction) :
    t.data.properties.get? .functions = some (.nodes (Tree.directFunctions t.children)) := by
  cases h with
  | function _ _ hfunctions => exact hfunctions
  | other hne => exact absurd ht hne

theorem Tree.Nested.around {around? : Option NodeId} (h : Tree.Nested around? t)
    (ht : t.tag = .kwFunction) :
    t.data.properties.get? .enclosingFunction = around?.map .node := by
  cases h with
  | function _ haround => exact haround
  | other hne => exact absurd ht hne

open Tree in
/-- A script whose functions know what is around and inside them is indexed by its list. -/
theorem IsScript.indexed (h : IsScript d t) (hdistinct : (ids [t]).Nodup) (hnested : Nested none t)
    (hinside : t.data.properties.get? .functions = some (.nodes (directFunctions t.children))) :
    Indexed t (FunctionIndex.ofTree t) := by
  have hpre : preorderAll [t] = t.preorder := by rw [preorderAll, preorderAll, List.append_nil]
  have hroot : t.tag ≠ .kwFunction := by simp [h.root]
  have hnone : t.data.function? = none := by
    obtain ⟨hdata, -, -⟩ := h
    exact Option.eq_none_iff_forall_ne_some.mpr fun f hf =>
      nomatch Node.function?_of_core hdata.core hf
  have hmarked : Marked [t] := by
    intro u hu
    rw [preorderAll_singleton, List.mem_cons] at hu
    rcases hu with rfl | hu
    · simp [hroot, hnone]
    · exact (h.inside hu).marks.2
  have htold : ∀ u ∈ t.preorder, u.tag = .kwFunction →
      u.data.properties.get? .functions = some (.nodes (directFunctions u.children)) := by
    intro u hu htag
    obtain ⟨above, hu⟩ := Under.root.deeper hu
    exact (hnested.under hu).functions htag
  have hin : ∀ f ∈ functionsIn t.children, f ∈ t.preorder ∧ f.tag = .kwFunction := by
    intro f hf
    rw [functionsIn, List.mem_filter, beq_iff_eq] at hf
    exact ⟨preorder_eq t ▸ List.mem_cons_of_mem _ hf.1, hf.2⟩
  have hlistable : FunctionIndex.Listable t.preorder (outerFunctionsAll t.children) := by
    refine ⟨fun f hf => ?_, fun f hf => ?_, fun f hf => ?_⟩ <;>
      rw [FunctionIndex.functionsIn_outerAll] at hf <;> obtain ⟨hf, htag⟩ := hin f hf
    · exact find?_preorder hdistinct hf
    · rw [Properties.nodes, htold f hf htag]
    · refine ⟨(hmarked f (hpre ▸ hf)).mp htag, fun u hu => ?_⟩
      obtain ⟨above, hplace⟩ := Under.root.deeper hf
      obtain ⟨around, hplace⟩ := hplace.deeper (preorder_eq f ▸ List.mem_cons_of_mem _ hu)
      exact hmarked u hplace.mem
  have hentries : (FunctionIndex.ofTree t).entries = entriesFrom 0 none 0 t := by
    rw [entriesFrom_other hnone, entriesAllFrom_outer _ _ _ _ hmarked.inside]
    have hlist : t.data.properties.nodes .functions = (outerFunctionsAll t.children).map Tree.id := by
      rw [Properties.nodes, hinside]
      rfl
    change FunctionIndex.collectFrom _ _ _ _ _ (t.data.properties.nodes .functions) = _
    rw [hlist]
    refine FunctionIndex.collectFrom_eq hlistable (fun f hf => (mem_outerFunctionsAll _ f hf).2) ?_
    rw [FunctionIndex.functionsIn_outerAll, functionsIn, preorder_eq, List.length_cons]
    have := List.length_filter_le (fun u : Tree => u.tag == .kwFunction) (preorderAll t.children)
    omega
  have htrees : (FunctionIndex.ofTree t).entries.map (·.tree) = functionsIn [t] := by
    rw [hentries, trees_entriesFrom _ _ _ t hmarked]
  refine ⟨?_, ?_, fun above u hu htag => ?_, fun above u hu htag => ?_, fun u hu htag => ?_⟩
  · rw [htrees, functionsIn, hpre]
  · have hids : (FunctionIndex.ofTree t).entries.map (·.tree.id) = (functionsIn [t]).map Tree.id := by
      rw [← htrees, List.map_map]
      rfl
    rw [hids]
    exact hdistinct.sublist (List.filter_sublist.map _)
  · obtain ⟨before, after, parent?, hall, hparent⟩ := hu.segment hmarked
    obtain ⟨f, hf⟩ := Option.isSome_iff_exists.mp ((hmarked u hu.mem).mp htag)
    rw [hentries]
    refine ⟨⟨f, u.line, (functionsAround above).length, parent?, u⟩, ?_, rfl, hf, rfl, rfl,
      hparent⟩
    rw [hall, entriesFrom_function hf]
    simp
  · rw [(hnested.under hu).around htag, Option.map_map]
    rfl
  · rcases htag with htag | htag
    · rw [preorder_eq, List.mem_cons] at hu
      rcases hu with rfl | hu
      · exact hinside
      · exact absurd htag (h.inside hu).marks.1
    · exact htold u hu htag

namespace Script

/-- The functions of a script that was read are numbered in the order of the text, and every node
tells of those around and inside it what the tree does. -/
theorem read_indexed {settings : ReadSettings} {text : String} {script : Script}
    (h : read settings text = .ok script) :
    Tree.Indexed script.tree (FunctionIndex.ofTree script.tree) := by
  obtain ⟨hscript, -⟩ := Grammar.read_sound h
  have hdistinct := read_distinct h
  unfold read at h
  dsimp only at h
  split at h
  · cases h
  next root s hrun =>
  obtain rfl := Except.ok.inj h
  obtain ⟨htook, hfunctions⟩ := Grammar.ensures_ok (Grammar.script_counts
    (Grammar.steers_nested (text.length + 1)) settings.source settings.startLine
    (tame_opening settings text) rfl rfl) hrun
  exact hscript.indexed hdistinct (htook.nested root (by simp)) hfunctions

/-- A function in an argument, one in a body, and one in the header of a loop. -/
theorem read_indexed_argument : ∃ script,
    read {} "f(function(a){function g(){}});for(var h=function(){};;);" = .ok script
      ∧ Tree.Indexed script.tree (FunctionIndex.ofTree script.tree)
      ∧ (FunctionIndex.ofTree script.tree).entries.map (fun e => (e.depth, e.parent?))
        = [(0, none), (1, some 0), (0, none)] := by
  have hread : ((read {}
      "f(function(a){function g(){}});for(var h=function(){};;);").toOption.map
      fun script => (FunctionIndex.ofTree script.tree).entries.map fun e => (e.depth, e.parent?))
        = some [(0, none), (1, some 0), (0, none)] := by
    decide +kernel
  cases h : read {}
      "f(function(a){function g(){}});for(var h=function(){};;);" with
  | error problem =>
    rw [h] at hread
    cases hread
  | ok script =>
    rw [h] at hread
    exact ⟨script, rfl, read_indexed h, Option.some.inj hread⟩

end Script
end ScriptPress

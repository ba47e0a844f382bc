import SimpleLR.Proofs.Grammar.Description.Reading
import SimpleLR.Proofs.Grammar.Resolving

/-!
# Grammars of texts

Which texts are loaded as a grammar, and as which one (`Grammar.ofText_loads`): those that are
descriptions without a clash (`Description.Loadable`), as the grammar of the names and rules that
they give (`Grammar.Reads`).
-/

namespace SimpleLR

open Text (Solid isBlank)

namespace Description

/-- The names in the rules of a description, in the order in which they appear. -/
def usedNames (d : Description) : List Char := d.rules.flatMap Production.names

/-- The names of all nonterminals: those that are listed, then those that are used without being
listed, in the order in which they first appear. -/
def allNonterminals (d : Description) : List Char :=
  d.nonterminalNames ++
    (d.usedNames.filter (· ∉ d.nonterminalNames ++ d.terminalNames)).eraseDups

/-- A description without a clash of names or of rules, that can be numbered. -/
structure Loadable (d : Description) : Prop where
  names_distinct : (d.nonterminalNames ++ d.terminalNames).Nodup
  names_unreserved : '$' ∉ d.nonterminalNames ++ d.terminalNames ++ d.usedNames
  left_nonterminal : ∀ p ∈ d.rules, p.left ∉ d.terminalNames
  rules_distinct : d.rules.Nodup
  some_nonterminal : d.allNonterminals ≠ []
  nonterminals_lt : d.allNonterminals.length < numberLimit
  terminals_lt : d.terminalNames.length < numberLimit
  rules_lt : d.rules.length < numberLimit

end Description

/-- The symbols, the rules and the start symbol of a grammar are those that a description gives. -/
structure Grammar.Reads (g : Grammar) (d : Description) : Prop where
  terminals : g.terminals.toList = "$end" :: d.terminalNames.map Char.toString
  nonterminals : g.nonterminals.toList = "$start" :: d.allNonterminals.map Char.toString
  rules : List.Forall₂ (fun r p ↦ g.nonterminalName r.left = p.left.toString ∧
    r.right.toList.map g.symbolName = p.right.map Char.toString) g.rules.toList.tail d.rules
  start : some (g.nonterminalName g.start) =
    (if 'S' ∈ d.allNonterminals then some 'S' else d.allNonterminals.head?).map Char.toString

namespace Description

variable {d : Description}

/-- Names that are used are listed or become nonterminals. -/
theorem mem_allNonterminals_append {c : Char} : c ∈ d.allNonterminals ++ d.terminalNames ↔
    c ∈ d.nonterminalNames ++ d.terminalNames ++ d.usedNames := by
  simp only [allNonterminals, List.mem_append, List.mem_eraseDups, List.mem_filter,
    decide_eq_true_iff]
  tauto

theorem allNonterminals_eq_foldl (d : Description) :
    d.allNonterminals = d.usedNames.foldl (meet d.terminalNames) d.nonterminalNames :=
  (foldl_meet _ _ _).symm

theorem nodup_allNonterminals_append : (d.allNonterminals ++ d.terminalNames).Nodup ↔
    (d.nonterminalNames ++ d.terminalNames).Nodup := by
  refine ⟨fun h ↦ h.sublist ((List.sublist_append_left _ _).append_right _), fun h ↦ ?_⟩
  rw [allNonterminals_eq_foldl]
  exact nodup_foldl_meet d.usedNames h

/-- A description is loadable when everything in it can be declared. -/
theorem loadable_iff : d.Loadable ↔
    ((∀ p ∈ d.rules, p.left ∉ d.terminalNames) ∧
      Declarable d.allNonterminals d.terminalNames d.rules) ∧ d.allNonterminals ≠ [] := by
  constructor
  · intro h
    exact ⟨⟨h.left_nonterminal, nodup_allNonterminals_append.2 h.names_distinct,
      mt mem_allNonterminals_append.1 h.names_unreserved, h.rules_distinct, h.nonterminals_lt,
      h.terminals_lt, h.rules_lt⟩, h.some_nonterminal⟩
  · rintro ⟨⟨left, h⟩, some_nonterminal⟩
    exact ⟨nodup_allNonterminals_append.1 h.distinct, mt mem_allNonterminals_append.2 h.unreserved,
      left, h.rules_distinct, some_nonterminal, h.nonterminals_lt, h.terminals_lt, h.rules_lt⟩

/-! ## Declaring what a description lists -/

theorem yields_atLine {α : Type} {x : Build α} {b : Builder} {p : Prop} {post : α → Builder → Prop}
    (h : Yields x b p post) (line : Nat) :
    Yields (discard (atLine line x)) b p fun _ b' ↦ ∃ a, post a b' :=
  h.mapError.map fun a _ after ↦ ⟨a, after⟩

section

variable {b : Builder} {ns ts : List Char}

theorem declare_nonterminals (solid : Solid d.nonterminalNames) :
    Yields (d.nonterminals.forM fun l ↦
        discard (atLine l.line (Builder.nonterminal l.value.toString))) .empty
      (Declarable d.nonterminalNames [] []) fun _ b ↦ b.Lists d.nonterminalNames [] [] := by
  refine Yields.forM (fun done ↦ Declarable (done.map Located.value) [] [])
    (fun done (b : Builder) ↦ b.Lists (done.map Located.value) [] []) (fun done rest next ↦ ?_)
    (fun h ↦ h.declarable) (fun l mem h ↦ ?_) .empty
  · rw [List.map_append] at next
    exact next.mono (List.prefix_append _ _) List.prefix_rfl List.prefix_rfl
  · rw [List.map_append]
    have step := h.nonterminal (solid _ (List.mem_map_of_mem mem))
    exact (yields_atLine step l.line).imp fun _ _ ⟨_, after, _⟩ ↦ after

theorem declare_terminals (h : b.Lists ns [] []) (solid : Solid d.terminalNames) :
    Yields (d.terminals.forM fun l ↦
        discard (atLine l.line (Builder.terminal l.value.toString))) b
      (Declarable ns d.terminalNames []) fun _ b' ↦ b'.Lists ns d.terminalNames [] := by
  refine Yields.forM (fun done ↦ Declarable ns (done.map Located.value) [])
    (fun done (b : Builder) ↦ b.Lists ns (done.map Located.value) []) (fun done rest next ↦ ?_)
    (fun h ↦ h.declarable) (fun l mem h ↦ ?_) h
  · rw [List.map_append] at next
    exact next.mono List.prefix_rfl (List.prefix_append _ _) List.prefix_rfl
  · rw [List.map_append]
    have step := h.terminal (solid _ (List.mem_map_of_mem mem))
    exact (yields_atLine step l.line).imp fun _ _ ⟨_, after⟩ ↦ after

theorem declare_rules (h : b.Lists ns ts []) (solid : Solid d.usedNames) :
    Yields (d.productions.forM fun l ↦ discard (atLine l.line (declare l.value))) b
      ((∀ p ∈ d.rules, p.left ∉ ts) ∧ Declarable (d.usedNames.foldl (meet ts) ns) ts d.rules)
      fun _ b' ↦ (∀ p ∈ d.rules, p.left ∉ ts) ∧
        b'.Lists (d.usedNames.foldl (meet ts) ns) ts d.rules := by
  refine Yields.forM
    (fun done ↦ (∀ p ∈ done.map Located.value, p.left ∉ ts) ∧
      Declarable (((done.map Located.value).flatMap Production.names).foldl (meet ts) ns) ts
        (done.map Located.value))
    (fun done (b : Builder) ↦ (∀ p ∈ done.map Located.value, p.left ∉ ts) ∧
      b.Lists (((done.map Located.value).flatMap Production.names).foldl (meet ts) ns) ts
        (done.map Located.value)) (fun done rest next ↦ ?_)
    (fun h ↦ ⟨h.1, h.2.declarable⟩) (fun l mem h ↦ ?_) ⟨nofun, h⟩
  · rw [List.map_append, List.flatMap_append, List.foldl_append, List.forall_mem_append] at next
    exact ⟨next.1.1, next.2.mono (prefix_foldl_meet ts _ _) List.prefix_rfl
      (List.prefix_append _ _)⟩
  · have names : Solid l.value.names := fun c mem' ↦
      solid c (List.mem_flatMap.2 ⟨l.value, List.mem_map_of_mem mem, mem'⟩)
    rw [List.map_append, List.flatMap_append, List.foldl_append, List.forall_mem_append,
      List.map_singleton, List.flatMap_singleton, List.forall_mem_singleton]
    refine ((yields_atLine (h.2.declare names).and_condition l.line).imp ?_).congr ?_
    · rintro _ _ ⟨_, ⟨left, _⟩, after⟩
      exact ⟨⟨h.1, left⟩, after⟩
    · rw [and_assoc, and_iff_right h.1]

end

/-- The start symbol is named if it is a nonterminal, and nothing is refused. -/
theorem preferStart_eq_ok {b : Builder} (unnamed : b.start = none) (c : Char) :
    ∃ b', preferStart c.toString b = .ok ((), b') ∧ b'.toAlphabet = b.toAlphabet ∧
      b'.rules = b.rules ∧ b'.start = b.nonterminal? c.toString := by
  cases found : b.nonterminal? c.toString with
  | none =>
    refine ⟨b, ?_, rfl, rfl, unnamed⟩
    rw [preferStart, StateT.bind_eq_ok_iff]
    refine ⟨b, b, rfl, ?_⟩
    rw [found]
    rfl
  | some n =>
    have declared := Alphabet.declares_of_name? (s := .nonterminal n)
      (Alphabet.nonterminal?_eq_some_iff.1 found)
    refine ⟨{ b with start := some n, start_declared := by simpa using declared }, ?_,
      rfl, rfl, rfl⟩
    rw [preferStart, StateT.bind_eq_ok_iff]
    refine ⟨b, b, rfl, ?_⟩
    rw [found]
    exact Builder.startFrom_eq_ok_iff.2 ⟨declared, rfl⟩

theorem preferStart_yields {b : Builder} {ns ts : List Char} {ps : List Production}
    (h : b.Lists ns ts ps) :
    Yields (fun b ↦ (preferStart "S" b).mapError (GrammarError.declaration none)) b True fun _ b' ↦
      ∃ b : Builder, b.Lists ns ts ps ∧ b'.toAlphabet = b.toAlphabet ∧ b'.rules = b.rules ∧
        b'.start = b.nonterminal? "S" := by
  obtain ⟨b', e, alphabet, rules, start⟩ := preferStart_eq_ok h.start 'S'
  exact .mapError (x := preferStart "S") (.of_eq_ok e trivial ⟨b, h, alphabet, rules, start⟩)

/-- Everything that a description lists is declared, with the names that are not listed added where
they are met. -/
theorem build_yields (solid : Solid (d.nonterminalNames ++ d.terminalNames ++ d.usedNames)) :
    Yields d.build .empty ((∀ p ∈ d.rules, p.left ∉ d.terminalNames) ∧
        Declarable d.allNonterminals d.terminalNames d.rules) fun _ b' ↦
      ∃ b : Builder, b.Lists d.allNonterminals d.terminalNames d.rules ∧
        b'.toAlphabet = b.toAlphabet ∧ b'.rules = b.rules ∧ b'.start = b.nonterminal? "S" := by
  have ⟨listed, used⟩ := List.forall_mem_append.1 solid
  have ⟨nonterminals, terminals⟩ := List.forall_mem_append.1 listed
  have all := d.allNonterminals_eq_foldl.symm
  rw [build]
  refine ((declare_nonterminals nonterminals).bind fun _ b₁ h₁ ↦
    (declare_terminals h₁ terminals).bind fun _ b₂ h₂ ↦
      (declare_rules h₂ used).bind fun _ b₃ ⟨_, h₃⟩ ↦ preferStart_yields (all ▸ h₃)).congr ?_
  rw [all, and_true]
  constructor
  · exact fun next ↦ next.2.2
  · rintro ⟨left, next⟩
    have listed := next.mono (List.prefix_append _ _) List.prefix_rfl List.nil_prefix
    exact ⟨listed.mono List.prefix_rfl List.nil_prefix List.prefix_rfl, listed, left, next⟩

/-! ## Names in a text -/

theorem NameLine.solid {c : Char} {line : List Char} (h : NameLine c line) : isBlank c = false :=
  h.alone.starts c rfl

theorem RuleLine.solid {p : Production} {line : List Char} (h : RuleLine p line) :
    Solid p.names := by
  obtain ⟨_, _, name, symbols⟩ := h
  refine List.forall_mem_cons.2 ⟨name.solid, ?_⟩
  cases symbols with
  | empty => exact nofun
  | symbols => exact Text.solid_filter _

/-- Blanks are not read as names. -/
theorem Describes.solid {ls : List (List Char)} (h : Describes ls d) :
    Solid (d.nonterminalNames ++ d.terminalNames ++ d.usedNames) := by
  obtain ⟨_, _, _, nonterminals, terminals, rules, _⟩ := h
  simp only [Solid, usedNames, nonterminalNames_listing, terminalNames_listing, rules_listing,
    List.forall_mem_append, List.forall_mem_flatMap]
  exact ⟨⟨forall_mem_of_forall₂ nonterminals fun _ _ ↦ NameLine.solid,
    forall_mem_of_forall₂ terminals fun _ _ ↦ NameLine.solid⟩,
    forall_mem_of_forall₂ rules fun _ _ ↦ RuleLine.solid⟩

theorem solid_of_ofText {text : String} (h : ofText text = .ok d) :
    Solid (d.nonterminalNames ++ d.terminalNames ++ d.usedNames) := by
  obtain ⟨ls, -, describes⟩ := ofText_eq_ok_iff.1 h
  exact describes.solid

end Description

/-! ## The grammar of a description -/

namespace Builder.Lists

variable {b b' : Builder} {ns ts : List Char} {ps : List Production} {r : Rule} {p : Production}

/-- The start symbol is `S` if that is a nonterminal, and the first nonterminal otherwise. -/
theorem start_name (h : b.Lists ns ts ps) (some_left : ns ≠ []) :
    some (b.nonterminalName ((b.nonterminal? "S").getD ⟨1⟩)) =
      (if 'S' ∈ ns then some 'S' else ns.head?).map Char.toString := by
  cases found : b.nonterminal? "S" with
  | some n =>
    have named : b.name? (.nonterminal n) = some (Char.toString 'S') :=
      Alphabet.nonterminal?_eq_some_iff.1 found
    rw [if_pos (h.mem_nonterminals named)]
    exact congrArg some (Alphabet.name?_eq_some_iff.1 named).2
  | none =>
    have missing : 'S' ∉ ns := fun mem ↦ by
      obtain ⟨n, named⟩ := h.exists_nonterminal mem
      have found' := Alphabet.nonterminal?_eq_some_iff.2 named
      exact nomatch found.symm.trans found'
    obtain ⟨c, ns, rfl⟩ := List.exists_cons_of_ne_nil some_left
    have first : b.name? (.nonterminal ⟨1⟩) = some c.toString := by
      rw [Alphabet.name?, ← Array.getElem?_toList, h.nonterminals]
      rfl
    rw [if_neg missing]
    exact congrArg some (Alphabet.name?_eq_some_iff.1 first).2

end Builder.Lists

namespace Grammar

variable {d : Description} {text : String}

theorem ofDescription_eq_ok_iff {g : Grammar} : ofDescription d = .ok g ↔
    ∃ b, d.build .empty = .ok ((), b) ∧ b.finish = .ok g := by
  refine Except.bind_eq_ok_iff.trans ⟨?_, ?_⟩
  · rintro ⟨⟨⟨⟩, b⟩, built, finished⟩
    exact ⟨b, built, Except.mapError_eq_ok_iff.1 finished⟩
  · rintro ⟨b, built, finished⟩
    exact ⟨((), b), built, Except.mapError_eq_ok_iff.2 finished⟩

theorem declares_start_iff {b b' : Builder}
    (h : b.Lists d.allNonterminals d.terminalNames d.rules)
    (alphabet : b'.toAlphabet = b.toAlphabet) :
    b'.Declares (.nonterminal (b'.start.getD ⟨1⟩)) ↔ d.allNonterminals ≠ [] := by
  rw [Builder.declares_start_iff, alphabet, h.nonterminals, List.tail_cons, ne_eq,
    List.map_eq_nil_iff]

theorem reads_augment {b b' : Builder} (h : b.Lists d.allNonterminals d.terminalNames d.rules)
    (alphabet : b'.toAlphabet = b.toAlphabet) (rules : b'.rules = b.rules)
    (start : b'.start = b.nonterminal? "S")
    (declared : b'.Declares (.nonterminal (b'.start.getD ⟨1⟩))) :
    (b'.augment _ declared).Reads d where
  terminals := (congrArg (·.terminals.toList) alphabet).trans h.terminals
  nonterminals := (congrArg (·.nonterminals.toList) alphabet).trans h.nonterminals
  rules := by
    rw [Builder.rules_augment, List.tail_cons, rules]
    change List.Forall₂
      (fun r p ↦ b'.nonterminalName r.left = _ ∧ r.right.toList.map b'.symbolName = _)
      b.rules.toList d.rules
    rw [alphabet]
    exact h.rules.imp fun _ _ ↦ Alphabet.Spells.names
  start := by
    change some (b'.nonterminalName (b'.start.getD ⟨1⟩)) = _
    rw [alphabet, start]
    exact h.start_name ((declares_start_iff h alphabet).1 declared)

/-- Which descriptions are those of grammars, and of which ones. -/
theorem ofDescription_loads (solid : Solid (d.nonterminalNames ++ d.terminalNames ++ d.usedNames)) :
    ((∃ g, ofDescription d = .ok g) ↔ d.Loadable) ∧ ∀ g, ofDescription d = .ok g → g.Reads d := by
  have built := Description.build_yields solid
  simp only [ofDescription_eq_ok_iff, Description.loadable_iff]
  refine ⟨⟨?_, ?_⟩, ?_⟩
  · rintro ⟨g, b', run, finished⟩
    obtain ⟨declarable, b, h, alphabet, _⟩ := built.sound run
    obtain ⟨declared, -⟩ := Builder.eq_augment_of_finish finished
    exact ⟨declarable, (declares_start_iff h alphabet).1 declared⟩
  · rintro ⟨declarable, some_nonterminal⟩
    obtain ⟨⟨⟩, b', run⟩ := built.total declarable
    obtain ⟨-, b, h, alphabet, _⟩ := built.sound run
    have declared := (declares_start_iff h alphabet).2 some_nonterminal
    exact ⟨_, b', run, Builder.finish_of_declares declared⟩
  · rintro g ⟨b', run, finished⟩
    obtain ⟨-, b, h, alphabet, rules, start⟩ := built.sound run
    obtain ⟨declared, rfl⟩ := Builder.eq_augment_of_finish finished
    exact reads_augment h alphabet rules start declared

/-- A text is loaded as a grammar exactly if it is a description without a clash, and then the
symbols, the rules and the start symbol are those that the description gives. -/
theorem ofText_loads (text : String) :
    ((∃ g, ofText text = .ok g) ↔ ∃ d, Description.ofText text = .ok d ∧ d.Loadable) ∧
    ∀ g, ofText text = .ok g → ∃ d, Description.ofText text = .ok d ∧ g.Reads d := by
  have loads {d : Description} (h : Description.ofText text = .ok d) :=
    ofDescription_loads (Description.solid_of_ofText h)
  have run {g : Grammar} : ofText text = .ok g ↔
      ∃ d, Description.ofText text = .ok d ∧ ofDescription d = .ok g :=
    Except.bind_eq_ok_iff.trans (exists_congr fun d ↦ and_congr_left' Except.mapError_eq_ok_iff)
  constructor
  · constructor
    · rintro ⟨g, e⟩
      obtain ⟨d, h, defined⟩ := run.1 e
      exact ⟨d, h, (loads h).1.1 ⟨g, defined⟩⟩
    · rintro ⟨d, h, loadable⟩
      obtain ⟨g, defined⟩ := (loads h).1.2 loadable
      exact ⟨g, run.2 ⟨d, h, defined⟩⟩
  · intro g e
    obtain ⟨d, h, defined⟩ := run.1 e
    exact ⟨d, h, (loads h).2 g defined⟩

/-- A nonterminal that is not listed, `S`, comes after the one that is, and is the start symbol. -/
theorem ofText_loads_unlisted :
    ∃ g, ofText "1\n1\n2\nA\na\nS->Aa\nA->a\n" = .ok g ∧
      g.Reads (.listing ['A'] ['a'] [⟨'S', ['A', 'a']⟩, ⟨'A', ['a']⟩]) := by
  have read : Description.ofText "1\n1\n2\nA\na\nS->Aa\nA->a\n" =
      .ok (.listing ['A'] ['a'] [⟨'S', ['A', 'a']⟩, ⟨'A', ['a']⟩]) := by
    decide +kernel
  have loadable : Description.Loadable
      (.listing ['A'] ['a'] [⟨'S', ['A', 'a']⟩, ⟨'A', ['a']⟩]) := by
    constructor <;> decide
  obtain ⟨g, e⟩ := (ofText_loads _).1.2 ⟨_, read, loadable⟩
  obtain ⟨d, read', reads⟩ := (ofText_loads _).2 g e
  cases read.symm.trans read'
  exact ⟨g, e, reads⟩

end Grammar

end SimpleLR

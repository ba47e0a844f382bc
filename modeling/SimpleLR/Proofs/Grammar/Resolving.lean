import SimpleLR.Grammar.Load
import SimpleLR.Proofs.Grammar.Declarations
import SimpleLR.Proofs.Text.Lines

/-!
# Names are resolved as they are met

What a builder holds while a description is declared is kept by three lists: the names of the
nonterminals, the names of the terminals and the rules so far (`Builder.Lists`). Each step adds to
the lists, and is refused exactly if what they would be then is not `Declarable`.
-/

namespace SimpleLR

open Text (Solid isBlank)

/-- Names of nonterminals and of terminals and rules that can all be declared. -/
structure Declarable (ns ts : List Char) (ps : List Production) : Prop where
  distinct : (ns ++ ts).Nodup
  unreserved : '$' ∉ ns ++ ts
  rules_distinct : ps.Nodup
  nonterminals_lt : ns.length < numberLimit
  terminals_lt : ts.length < numberLimit
  rules_lt : ps.length < numberLimit

/-- The nonterminals after a name is met: one that is not known becomes one of them. -/
def meet (ts ns : List Char) (c : Char) : List Char := if c ∈ ns ++ ts then ns else ns ++ [c]

/-- The names in a rule, in the order in which they are met. -/
def Production.names (p : Production) : List Char := p.left :: p.right

/-- A rule that spells a production. -/
def Alphabet.Spells (a : Alphabet) (r : Rule) (p : Production) : Prop :=
  a.name? (.nonterminal r.left) = some p.left.toString ∧
    List.Forall₂ (fun s c ↦ a.name? s = some (Char.toString c)) r.right.toList p.right

/-- What a builder holds that has met these names and rules. -/
structure Builder.Lists (b : Builder) (ns ts : List Char) (ps : List Production) : Prop where
  terminals : b.terminals.toList = "$end" :: ts.map Char.toString
  nonterminals : b.nonterminals.toList = "$start" :: ns.map Char.toString
  rules : List.Forall₂ b.Spells b.rules.toList ps
  start : b.start = none
  declarable : Declarable ns ts ps

/-- An alphabet that has more nonterminals. -/
structure Alphabet.Extends (a' a : Alphabet) : Prop where
  terminals : a'.terminals.toList = a.terminals.toList
  nonterminals : a.nonterminals.toList <+: a'.nonterminals.toList

/-! ## Lists that grow -/

variable {ns ns' ts ts' : List Char} {ps ps' : List Production} {c : Char} {p : Production}

/-- Where more can be declared, so can less. -/
theorem Declarable.mono (h : Declarable ns' ts' ps') (hn : ns <+: ns') (ht : ts <+: ts')
    (hp : ps <+: ps') : Declarable ns ts ps := by
  have sub := hn.sublist.append ht.sublist
  exact ⟨h.distinct.sublist sub, fun mem ↦ h.unreserved (sub.mem mem),
    h.rules_distinct.sublist hp.sublist, Nat.lt_of_le_of_lt hn.length_le h.nonterminals_lt,
    Nat.lt_of_le_of_lt ht.length_le h.terminals_lt, Nat.lt_of_le_of_lt hp.length_le h.rules_lt⟩

theorem perm_middle_append (ns ts : List Char) (c : Char) :
    (ns ++ [c] ++ ts).Perm (c :: (ns ++ ts)) := by
  rw [← List.append_cons]
  exact List.perm_middle

/-- When one more name can be given. -/
theorem nodup_and_unreserved_iff {names names' : List Char} (perm : names'.Perm (c :: names))
    (distinct : names.Nodup) (unreserved : '$' ∉ names) :
    names'.Nodup ∧ '$' ∉ names' ↔ c ≠ '$' ∧ c ∉ names := by
  rw [perm.nodup_iff, perm.mem_iff, List.nodup_cons, List.mem_cons, not_or,
    and_iff_left distinct, and_iff_left unreserved, and_comm, ne_comm]

theorem declarable_nonterminal_iff (h : Declarable ns ts ps) : Declarable (ns ++ [c]) ts ps ↔
    c ≠ '$' ∧ c ∉ ns ++ ts ∧ ns.length + 1 < numberLimit := by
  have names := nodup_and_unreserved_iff (perm_middle_append ns ts c) h.distinct h.unreserved
  have length : (ns ++ [c]).length = ns.length + 1 := List.length_append
  rw [← and_assoc, ← names, ← length]
  exact ⟨fun ⟨distinct, unreserved, _, lt, _, _⟩ ↦ ⟨⟨distinct, unreserved⟩, lt⟩,
    fun ⟨⟨distinct, unreserved⟩, lt⟩ ↦
      ⟨distinct, unreserved, h.rules_distinct, lt, h.terminals_lt, h.rules_lt⟩⟩

theorem declarable_terminal_iff (h : Declarable ns ts ps) : Declarable ns (ts ++ [c]) ps ↔
    c ≠ '$' ∧ c ∉ ns ++ ts ∧ ts.length + 1 < numberLimit := by
  have perm : (ns ++ (ts ++ [c])).Perm (c :: (ns ++ ts)) := by
    rw [← List.append_assoc]
    exact List.perm_append_singleton c (ns ++ ts)
  have names := nodup_and_unreserved_iff perm h.distinct h.unreserved
  have length : (ts ++ [c]).length = ts.length + 1 := List.length_append
  rw [← and_assoc, ← names, ← length]
  exact ⟨fun ⟨distinct, unreserved, _, _, lt, _⟩ ↦ ⟨⟨distinct, unreserved⟩, lt⟩,
    fun ⟨⟨distinct, unreserved⟩, lt⟩ ↦
      ⟨distinct, unreserved, h.rules_distinct, h.nonterminals_lt, lt, h.rules_lt⟩⟩

theorem declarable_rule_iff (h : Declarable ns ts ps) : Declarable ns ts (ps ++ [p]) ↔
    p ∉ ps ∧ ps.length + 1 < numberLimit := by
  have distinct : (ps ++ [p]).Nodup ↔ p ∉ ps := by
    rw [List.nodup_middle, List.append_nil, List.nodup_cons, and_iff_left h.rules_distinct]
  constructor
  · rintro ⟨_, _, rules, _, _, lt⟩
    rw [List.length_append] at lt
    exact ⟨distinct.1 rules, lt⟩
  · rintro ⟨fresh, lt⟩
    refine ⟨h.distinct, h.unreserved, distinct.2 fresh, h.nonterminals_lt, h.terminals_lt, ?_⟩
    rwa [List.length_append]

theorem prefix_meet (ts ns : List Char) (c : Char) : ns <+: meet ts ns c := by
  rw [meet]
  split
  · exact List.prefix_rfl
  · exact List.prefix_append ns [c]

theorem prefix_foldl_meet (ts ns cs : List Char) : ns <+: cs.foldl (meet ts) ns := by
  induction cs generalizing ns with
  | nil => exact List.prefix_rfl
  | cons c cs ih => exact (prefix_meet ts ns c).trans (ih _)

/-- No name is met twice. -/
theorem nodup_foldl_meet (cs : List Char) (h : (ns ++ ts).Nodup) :
    (cs.foldl (meet ts) ns ++ ts).Nodup := by
  induction cs generalizing ns with
  | nil => exact h
  | cons c cs ih =>
    refine ih ?_
    rw [meet]
    split
    · exact h
    · next unknown =>
      exact (perm_middle_append ns ts c).nodup_iff.2 (List.nodup_cons.2 ⟨unknown, h⟩)

/-- Names that are met become nonterminals in the order in which they first appear, if they are not
known before. -/
theorem foldl_meet (ts ns cs : List Char) :
    cs.foldl (meet ts) ns = ns ++ (cs.filter (· ∉ ns ++ ts)).eraseDups := by
  induction cs generalizing ns with
  | nil => simp
  | cons c cs ih =>
    rw [List.foldl_cons, ih, meet]
    by_cases known : c ∈ ns ++ ts
    · have dropped : ¬ decide (c ∉ ns ++ ts) = true := by
        rwa [decide_eq_true_iff, not_not]
      rw [if_pos known, List.filter_cons, if_neg dropped]
    · have kept : decide (c ∉ ns ++ ts) = true := decide_eq_true_iff.2 known
      rw [if_neg known, List.filter_cons, if_pos kept, List.eraseDups_cons, List.filter_filter,
        List.append_assoc]
      have others : ∀ d, decide (d ∉ ns ++ [c] ++ ts) = (!d == c && decide (d ∉ ns ++ ts)) := by
        intro d
        by_cases d = c <;> simp_all
      simp only [others]
      rfl

/-! ## Names of single characters -/

theorem isAcceptable_toString (solid : isBlank c = false) :
    Alphabet.isAcceptable c.toString = true ↔ c ≠ '$' := by
  simp [Alphabet.isAcceptable, Char.toString, solid]

theorem toString_ne_reserved (c : Char) : c.toString ≠ "$end" ∧ c.toString ≠ "$start" := by
  constructor <;> intro h <;> simpa [Char.toString] using congrArg String.toList h

theorem mem_map_toString {cs : List Char} : c.toString ∈ cs.map Char.toString ↔ c ∈ cs := by
  simp

/-! ## Symbols by their names -/

theorem forall_mem_of_forall₂ {α β : Type} {R : α → β → Prop} {q : α → Prop} {l : List α}
    {l' : List β} (h : List.Forall₂ R l l') (each : ∀ a b, R a b → q a) : ∀ a ∈ l, q a :=
  ((List.forall₂_and_left l l').1 (h.imp fun a b r ↦ ⟨each a b r, r⟩)).1

namespace Alphabet

variable {a a' : Alphabet} {s : Symbol} {r : Rule}

theorem name?_unique : Relator.BiUnique fun s c ↦ a.name? s = some (Char.toString c) where
  left _ _ _ h h' := Option.some.inj <|
    (symbol?_eq_some_iff_name?.2 h).symm.trans (symbol?_eq_some_iff_name?.2 h')
  right _ _ _ h h' := String.singleton_inj.1 (Option.some.inj (h.symm.trans h'))

theorem spells_unique (a : Alphabet) : Relator.BiUnique a.Spells where
  left r r' p h h' := by
    have left := name?_unique.left h.1 h'.1
    have right := name?_unique.forall₂.left h.2 h'.2
    cases r
    cases r'
    simp_all
  right r p p' h h' := by
    have left := name?_unique.right h.1 h'.1
    have right := name?_unique.forall₂.right h.2 h'.2
    cases p
    cases p'
    simp_all

theorem declares_of_name? (named : a.name? s = some c.toString) : a.Declares s := by
  obtain ⟨notEnd, notStart⟩ := toString_ne_reserved c
  cases s with
  | terminal t =>
    refine ⟨Nat.pos_of_ne_zero fun zero ↦ ?_, (Array.getElem?_eq_some_iff.1 named).1⟩
    rw [name?, zero, a.terminals_zero] at named
    exact notEnd (Option.some.inj named).symm
  | nonterminal n =>
    refine ⟨Nat.pos_of_ne_zero fun zero ↦ ?_, (Array.getElem?_eq_some_iff.1 named).1⟩
    rw [name?, zero, a.nonterminals_zero] at named
    exact notStart (Option.some.inj named).symm

theorem Spells.declaresRule (spells : a.Spells r p) : a.DeclaresRule r :=
  ⟨declares_of_name? spells.1, forall_mem_of_forall₂ spells.2 fun _ _ ↦ declares_of_name?⟩

/-- The names of the symbols in a rule that spells a production. -/
theorem Spells.names (spells : a.Spells r p) : a.nonterminalName r.left = p.left.toString ∧
    r.right.toList.map a.symbolName = p.right.map Char.toString := by
  refine ⟨(name?_eq_some_iff.1 spells.1).2, ?_⟩
  have same := spells.2.imp fun _ _ named ↦ (name?_eq_some_iff.1 named).2
  rw [← List.forall₂_eq_eq_eq, List.forall₂_map_left_iff, List.forall₂_map_right_iff]
  exact same

/-- A name that is given stays given. -/
theorem Extends.name? (h : a'.Extends a) {name : String} (named : a.name? s = some name) :
    a'.name? s = some name := by
  cases s with
  | terminal t =>
    rw [Alphabet.name?, ← Array.getElem?_toList] at named ⊢
    rwa [h.terminals]
  | nonterminal n =>
    obtain ⟨more, whole⟩ := h.nonterminals
    rw [Alphabet.name?, ← Array.getElem?_toList] at named ⊢
    rwa [← whole, List.getElem?_append_left (List.getElem?_eq_some_iff.1 named).1]

theorem Extends.spells (h : a'.Extends a) (spells : a.Spells r p) : a'.Spells r p :=
  ⟨h.name? spells.1, spells.2.imp fun _ _ ↦ h.name?⟩

end Alphabet

namespace Description

variable {b : Builder} {s : Symbol}

theorem resolve_of_some (found : b.symbol? c.toString = some s) :
    resolve c b = .ok (s, b) := by
  rw [resolve, StateT.bind_eq_ok_iff]
  refine ⟨b, b, rfl, ?_⟩
  rw [found]
  rfl

theorem resolve_of_none (found : b.symbol? c.toString = none) (r : Symbol × Builder) :
    resolve c b = .ok r ↔
      (.nonterminal <$> Builder.nonterminal c.toString : Build Symbol) b = .ok r := by
  rw [resolve, StateT.bind_eq_ok_iff]
  constructor
  · rintro ⟨_, _, ⟨⟩, h⟩
    rwa [found] at h
  · intro h
    refine ⟨b, b, rfl, ?_⟩
    rwa [found]

end Description

namespace Builder.Lists

variable {b b' : Builder} {s : Symbol}

theorem mem_names_iff (h : b.Lists ns ts ps) : c.toString ∈ b.names ↔ c ∈ ns ++ ts := by
  obtain ⟨notEnd, notStart⟩ := toString_ne_reserved c
  rw [Alphabet.names, h.terminals, h.nonterminals, List.mem_append, List.mem_cons, List.mem_cons,
    or_iff_right notEnd, or_iff_right notStart, mem_map_toString, mem_map_toString, List.mem_append,
    or_comm]

theorem size_terminals (h : b.Lists ns ts ps) : b.terminals.size = ts.length + 1 := by
  simpa using congrArg List.length h.terminals

theorem size_nonterminals (h : b.Lists ns ts ps) : b.nonterminals.size = ns.length + 1 := by
  simpa using congrArg List.length h.nonterminals

theorem extension (h : b.Lists ns ts ps) (h' : b'.Lists ns' ts ps') (pre : ns <+: ns') :
    b'.Extends b.toAlphabet where
  terminals := h'.terminals.trans h.terminals.symm
  nonterminals := by
    obtain ⟨more, rfl⟩ := pre
    rw [h.nonterminals, h'.nonterminals, List.map_append]
    exact List.prefix_append _ _

/-! ## What each step does -/

theorem empty : Builder.empty.Lists [] [] [] where
  terminals := rfl
  nonterminals := rfl
  rules := .nil
  start := rfl
  declarable := ⟨List.nodup_nil, nofun, List.nodup_nil, by decide, by decide, by decide⟩

theorem nonterminal (h : b.Lists ns ts ps) (solid : isBlank c = false) :
    Yields (Builder.nonterminal c.toString) b (Declarable (ns ++ [c]) ts ps) fun n b' ↦
      b'.Lists (ns ++ [c]) ts ps ∧ b'.name? (.nonterminal n) = some c.toString where
  total next := by
    obtain ⟨unreserved, fresh, lt⟩ := (declarable_nonterminal_iff h.declarable).1 next
    exact ⟨_, _, nonterminal_eq_ok_iff.2 ⟨(isAcceptable_toString solid).2 unreserved,
      h.size_nonterminals ▸ lt, mt h.mem_names_iff.1 fresh, rfl, rfl⟩⟩
  sound e := by
    obtain ⟨acceptable, lt, fresh, rfl, rfl⟩ := nonterminal_eq_ok_iff.1 e
    have next := (declarable_nonterminal_iff h.declarable).2
      ⟨(isAcceptable_toString solid).1 acceptable, mt h.mem_names_iff.2 fresh,
        h.size_nonterminals ▸ lt⟩
    have pushed : (b.nonterminals.push c.toString).toList = b.nonterminals.toList ++ [c.toString] :=
      Array.toList_push
    have larger : (b.addNonterminal c.toString fresh).Extends b.toAlphabet :=
      ⟨rfl, pushed ▸ List.prefix_append _ _⟩
    refine ⟨next, ⟨h.terminals, ?_, h.rules.imp fun _ _ ↦ larger.spells, h.start, next⟩,
      Array.getElem?_push_size⟩
    rw [List.map_append, ← List.cons_append, ← h.nonterminals]
    exact pushed

theorem terminal (h : b.Lists ns ts []) (solid : isBlank c = false) :
    Yields (Builder.terminal c.toString) b (Declarable ns (ts ++ [c]) []) fun _ b' ↦
      b'.Lists ns (ts ++ [c]) [] where
  total next := by
    obtain ⟨unreserved, fresh, lt⟩ := (declarable_terminal_iff h.declarable).1 next
    exact ⟨_, _, terminal_eq_ok_iff.2 ⟨(isAcceptable_toString solid).2 unreserved,
      h.size_terminals ▸ lt, mt h.mem_names_iff.1 fresh, rfl, rfl⟩⟩
  sound e := by
    obtain ⟨acceptable, lt, fresh, rfl, rfl⟩ := terminal_eq_ok_iff.1 e
    have next := (declarable_terminal_iff h.declarable).2
      ⟨(isAcceptable_toString solid).1 acceptable, mt h.mem_names_iff.2 fresh,
        h.size_terminals ▸ lt⟩
    refine ⟨next, ?_, h.nonterminals, ?_, h.start, next⟩
    · rw [List.map_append, ← List.cons_append, ← h.terminals]
      exact Array.toList_push
    · rw [List.forall₂_nil_right_iff]
      exact List.forall₂_nil_right_iff.1 h.rules

theorem resolve (h : b.Lists ns ts ps) (solid : isBlank c = false) :
    Yields (Description.resolve c) b (Declarable (meet ts ns c) ts ps) fun s b' ↦
      b'.Lists (meet ts ns c) ts ps ∧ b'.name? s = some c.toString := by
  rw [meet]
  cases found : b.symbol? c.toString with
  | some s =>
    have named := Alphabet.symbol?_eq_some_iff_name?.1 found
    rw [if_pos (h.mem_names_iff.1 (Alphabet.mem_names_iff.2 ⟨s, named⟩))]
    exact .of_eq_ok (Description.resolve_of_some found) h.declarable ⟨h, named⟩
  | none =>
    rw [if_neg (mt h.mem_names_iff.2 (Alphabet.symbol?_eq_none_iff.1 found))]
    exact ((h.nonterminal solid).map fun _ _ after ↦ after).of_iff
      (Description.resolve_of_none found)

/-! ### Rules -/

theorem rule {left : Nonterminal} {right : Array Symbol} (h : b.Lists ns ts ps)
    (spells : b.Spells ⟨left, right⟩ p) :
    Yields (Builder.rule left right) b (Declarable ns ts (ps ++ [p])) fun _ b' ↦
      b'.Lists ns ts (ps ++ [p]) := by
  have known : ⟨left, right⟩ ∈ b.rules.toList ↔ p ∈ ps :=
    List.rel_mem (Alphabet.spells_unique b.toAlphabet) spells h.rules
  have size : b.rules.size = ps.length := h.rules.length_eq
  have next : Declarable ns ts (ps ++ [p]) ↔ ⟨left, right⟩ ∉ b.rules.toList ∧
      b.rules.size + 1 < numberLimit := by
    rw [declarable_rule_iff h.declarable, known, size]
  constructor
  · intro holds
    obtain ⟨fresh, lt⟩ := next.1 holds
    exact ⟨_, _, rule_eq_ok_iff.2 ⟨lt, spells.declaresRule, fresh, rfl, rfl⟩⟩
  · intro _ _ e
    obtain ⟨lt, _, fresh, rfl, rfl⟩ := rule_eq_ok_iff.1 e
    have holds := next.2 ⟨fresh, lt⟩
    refine ⟨holds, h.terminals, h.nonterminals, ?_, h.start, holds⟩
    exact (Array.toList_push : (b.rules.push ⟨left, right⟩).toList = _) ▸
      List.rel_append h.rules (.cons spells .nil)

/-- Which names are those of terminals. -/
theorem mem_terminals (h : b.Lists ns ts ps) {t : Terminal}
    (named : b.name? (.terminal t) = some c.toString) : c ∈ ts := by
  have mem := Array.mem_toList_iff.2 (Array.mem_of_getElem? named)
  rw [h.terminals, List.mem_cons, or_iff_right (toString_ne_reserved c).1] at mem
  exact mem_map_toString.1 mem

theorem mem_nonterminals (h : b.Lists ns ts ps) {n : Nonterminal}
    (named : b.name? (.nonterminal n) = some c.toString) : c ∈ ns := by
  have mem := Array.mem_toList_iff.2 (Array.mem_of_getElem? named)
  rw [h.nonterminals, List.mem_cons, or_iff_right (toString_ne_reserved c).2] at mem
  exact mem_map_toString.1 mem

theorem not_mem_terminals (h : b.Lists ns ts ps) {n : Nonterminal}
    (named : b.name? (.nonterminal n) = some c.toString) : c ∉ ts := fun mem ↦
  (List.nodup_append.1 h.declarable.distinct).2.2 c (h.mem_nonterminals named) c mem rfl

theorem exists_nonterminal (h : b.Lists ns ts ps) (mem : c ∈ ns) :
    ∃ n, b.name? (.nonterminal n) = some c.toString := by
  have mem' := List.mem_cons_of_mem "$start" (mem_map_toString.2 mem)
  rw [← h.nonterminals, Array.mem_toList_iff, Array.mem_iff_getElem?] at mem'
  exact mem'.imp' Nonterminal.mk fun _ named ↦ named

/-- The right side of a rule is resolved symbol by symbol. -/
theorem resolveAll (h : b.Lists ns ts ps) {cs : List Char} (solid : Solid cs) :
    Yields (cs.mapM Description.resolve) b (Declarable (cs.foldl (meet ts) ns) ts ps) fun right b' ↦
      b'.Lists (cs.foldl (meet ts) ns) ts ps ∧
        List.Forall₂ (fun s c ↦ b'.name? s = some (Char.toString c)) right cs := by
  refine Yields.mapM (fun done ↦ Declarable (done.foldl (meet ts) ns) ts ps)
    (fun done out (b' : Builder) ↦ b'.Lists (done.foldl (meet ts) ns) ts ps ∧
      List.Forall₂ (fun s c ↦ b'.name? s = some (Char.toString c)) out done)
    (fun done rest next ↦ ?_) (fun h ↦ h.1.declarable) (fun c mem h ↦ ?_) ⟨h, .nil⟩
  · rw [List.foldl_append] at next
    exact next.mono (prefix_foldl_meet ts _ rest) List.prefix_rfl List.prefix_rfl
  · rw [List.foldl_append]
    refine (h.1.resolve (solid c mem)).imp fun s b' ⟨h', named⟩ ↦ ⟨h', ?_⟩
    have larger := h.1.extension h' (prefix_meet ts _ c)
    exact List.rel_append (h.2.imp fun _ _ ↦ larger.name?) (.cons named .nil)

theorem declare (h : b.Lists ns ts ps) (solid : Solid p.names) :
    Yields (Description.declare p) b
      (p.left ∉ ts ∧ Declarable (p.names.foldl (meet ts) ns) ts (ps ++ [p])) fun _ b' ↦
      b'.Lists (p.names.foldl (meet ts) ns) ts (ps ++ [p]) := by
  have ⟨left, right⟩ := List.forall_mem_cons.1 solid
  rw [Description.declare]
  refine ((h.resolve left).bind fun s b₁ ⟨h₁, named⟩ ↦ ?_).congr (and_iff_right_of_imp fun next ↦
    next.2.mono (prefix_foldl_meet ts _ p.right) List.prefix_rfl (List.prefix_append ps [p]))
  cases s with
  | terminal t => exact .of_eq_error rfl fun next ↦ next.1 (h₁.mem_terminals named)
  | nonterminal n =>
    have same : p.names.foldl (meet ts) ns = p.right.foldl (meet ts) (meet ts ns p.left) := rfl
    rw [same]
    refine ((h₁.resolveAll right).bind fun symbols b₂ ⟨h₂, spelled⟩ ↦ ?_).congr
      ((and_iff_right_of_imp fun next ↦
        next.mono List.prefix_rfl List.prefix_rfl (List.prefix_append ps [p])).trans
        (and_iff_right (h₁.not_mem_terminals named)).symm)
    have larger := h₁.extension h₂ (prefix_foldl_meet ts _ p.right)
    exact h₂.rule ⟨larger.name? named, spelled⟩

end Builder.Lists

end SimpleLR

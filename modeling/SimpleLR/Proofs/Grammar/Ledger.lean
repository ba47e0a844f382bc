import Mathlib.Logic.Function.Basic
import SimpleLR.Proofs.Grammar.Declarations

/-!
# Declarations in tables

Tables in which declarations are written down one entry after another, each under the next number of
a 16-bit counter. They are worked on in place: what a declaration has written when it is refused
stays written. Each declaration makes its checks before it writes, so one that is refused leaves the
tables as they were, and they hold what a builder holds (`Ledger.writeEach_ofBuilder`).
-/

namespace SimpleLR

/-- What has been declared, by number. The counters hold the numbers that are given next. -/
structure Ledger where
  terminals : List (Terminal × String)
  nonterminals : List (Nonterminal × String)
  rules : List (RuleId × Rule)
  start : Option Nonterminal
  nextTerminal : UInt16
  nextNonterminal : UInt16
  nextRule : UInt16

/-- Work on the tables, which keep what was written before a fault. -/
def Writing (α : Type) : Type := Ledger → Except Fault α × Ledger

namespace Writing

variable {α β γ : Type}

instance : Monad Writing where
  pure x := fun l => (.ok x, l)
  bind x f := fun l =>
    match x l with
    | (.error fault, l) => (.error fault, l)
    | (.ok a, l) => f a l

theorem bind_apply (x : Writing α) (f : α → Writing β) (l : Ledger) :
    (x >>= f) l =
      match x l with
      | (.error fault, l) => (.error fault, l)
      | (.ok a, l) => f a l := rfl

instance : LawfulMonad Writing :=
  .mk' Writing
    (fun x => funext fun l => by
      change (x >>= pure) l = x l
      rw [bind_apply]
      rcases x l with ⟨result, l⟩
      cases result <;> rfl)
    (fun _ _ => rfl)
    (fun x f g => funext fun l => by
      rw [bind_apply, bind_apply, bind_apply]
      rcases x l with ⟨result, l⟩
      cases result <;> rfl)

/-- The tables as they are. -/
def tables : Writing Ledger := fun l => (.ok l, l)

/-- Stops with a fault. -/
def refuse (fault : Fault) : Writing α := fun l => (.error fault, l)

/-- Stops with a fault unless a condition holds. -/
def require (condition : Bool) (fault : Fault) : Writing Unit :=
  if condition then pure () else refuse fault

/-- Changes the tables. -/
def update (f : Ledger → Ledger) : Writing Unit := fun l => (.ok (), f l)

theorem pure_apply (x : α) (l : Ledger) : (pure x : Writing α) l = (.ok x, l) := rfl

theorem tables_bind (f : Ledger → Writing β) (l : Ledger) : (tables >>= f) l = f l l := rfl

theorem update_bind (g : Ledger → Ledger) (f : Unit → Writing β) (l : Ledger) :
    (update g >>= f) l = f () (g l) := rfl

theorem require_bind (condition : Bool) (fault : Fault) (f : Unit → Writing β) (l : Ledger) :
    (require condition fault >>= f) l = if condition then f () l else (.error fault, l) := by
  cases condition <;> rfl

end Writing

namespace Ledger

/-- The tables of the two reserved symbols. -/
def initial : Ledger where
  terminals := [(.endOfInput, "$end")]
  nonterminals := [(.augmented, "$start")]
  rules := []
  start := none
  nextTerminal := 1
  nextNonterminal := 1
  nextRule := 1

/-- A table with an entry for a key: in the place of an older one, or else at the end. -/
def put {κ α : Type} [DecidableEq κ] (key : κ) (x : α) (table : List (κ × α)) : List (κ × α) :=
  if table.any (·.1 = key) then table.map fun e => if e.1 = key then (key, x) else e
  else table ++ [(key, x)]

/-- Whether a symbol is in the tables and not reserved. -/
def knows (l : Ledger) : Symbol → Bool
  | .terminal t => t != .endOfInput && l.terminals.any (·.1 = t)
  | .nonterminal n => n != .augmented && l.nonterminals.any (·.1 = n)

/-- Refuses a name that may not be given or is given already. -/
def checkName (name : String) : Writing Unit := do
  .require (Alphabet.isAcceptable name) (.incorrectName name)
  let l ← .tables
  .require (!(l.terminals.any (·.2 = name) || l.nonterminals.any (·.2 = name)))
    (.alreadyDeclared name)

/-- Takes the next number of a counter, unless it is the last one. -/
def takeNumber (kind : Kind) (counter : Ledger → UInt16) (setCounter : UInt16 → Ledger → Ledger) :
    Writing UInt16 := do
  let number := counter (← .tables)
  .require (number ≠ 0xFFFF) (.tooMany kind)
  .update (setCounter (number + 1))
  pure number

/-- Gives a name to the symbol of the next number. -/
def nameSymbol {α : Type} (kind : Kind) (counter : Ledger → UInt16)
    (setCounter : UInt16 → Ledger → Ledger) (symbol : Nat → α)
    (enter : α → String → Ledger → Ledger) (name : String) : Writing α := do
  checkName name
  let number ← takeNumber kind counter setCounter
  .update (enter (symbol number.toNat) name)
  pure (symbol number.toNat)

def terminal : String → Writing Terminal :=
  nameSymbol .terminals nextTerminal (fun n l => { l with nextTerminal := n }) Terminal.mk
    fun t name l => { l with terminals := put t name l.terminals }

def nonterminal : String → Writing Nonterminal :=
  nameSymbol .nonterminals nextNonterminal (fun n l => { l with nextNonterminal := n })
    Nonterminal.mk fun x name l => { l with nonterminals := put x name l.nonterminals }

/-- Refuses a rule that mentions unknown symbols or is in the tables already. -/
def checkRule (left : Nonterminal) (right : Array Symbol) : Writing Unit := do
  let l ← .tables
  .require (l.knows (.nonterminal left)) .unknownLeft
  .require (right.toList.all l.knows) .unknownRight
  .require (!l.rules.any (·.2 = ⟨left, right⟩)) .duplicateRule

def rule (left : Nonterminal) (right : Array Symbol) : Writing RuleId := do
  checkRule left right
  let number ← takeNumber .rules nextRule fun n l => { l with nextRule := n }
  let r : RuleId := ⟨number.toNat⟩
  .update fun l => { l with rules := put r ⟨left, right⟩ l.rules }
  pure r

def startFrom (symbol : Nonterminal) : Writing Unit := do
  let l ← .tables
  .require (l.knows (.nonterminal symbol)) .unknownStart
  .update fun l => { l with start := some symbol }

/-- Entries under the numbers of their places. -/
def numbered {κ α : Type} (key : Nat → κ) (entries : List α) : List (κ × α) :=
  entries.zipIdx.map fun e => (key e.2, e.1)

/-- The tables of what a builder holds. -/
def ofBuilder (b : Builder) : Ledger where
  terminals := numbered Terminal.mk b.terminals.toList
  nonterminals := numbered Nonterminal.mk b.nonterminals.toList
  rules := numbered (fun i => ⟨i + 1⟩) b.rules.toList
  start := b.start
  nextTerminal := .ofNat b.terminals.size
  nextNonterminal := .ofNat b.nonterminals.size
  nextRule := .ofNat (b.rules.size + 1)

theorem terminal_injective : Function.Injective Terminal.mk := fun _ _ ↦ congrArg Terminal.index

theorem nonterminal_injective : Function.Injective Nonterminal.mk := fun _ _ ↦
  congrArg Nonterminal.index

theorem ruleId_injective : Function.Injective fun i ↦ RuleId.mk (i + 1) := fun _ _ same ↦
  Nat.succ.inj (congrArg RuleId.index same)

section

variable {κ α : Type} {key : Nat → κ}

theorem any_entry_numbered [DecidableEq α] (key : Nat → κ) (entries : List α) (x : α) :
    (numbered key entries).any (·.2 = x) = decide (x ∈ entries) := by
  have values : x ∈ entries ↔ x ∈ (numbered key entries).map (·.2) := by
    rw [numbered, List.map_map]
    exact iff_of_eq (congrArg (x ∈ ·) (List.zipIdx_map_fst 0 entries).symm)
  rw [Bool.eq_iff_iff, List.any_eq_true, decide_eq_true_iff, values]
  simp

variable [DecidableEq κ]

theorem any_key_numbered (inj : Function.Injective key) (entries : List α) (i : Nat) :
    (numbered key entries).any (·.1 = key i) = decide (i < entries.length) := by
  rw [Bool.eq_iff_iff, numbered, List.any_map, List.any_eq_true]
  simp [List.mem_zipIdx_iff_getElem?, inj.eq_iff, ← Option.isSome_iff_exists]

theorem put_numbered (inj : Function.Injective key) (entries : List α) (x : α) :
    put (key entries.length) x (numbered key entries) = numbered key (entries ++ [x]) := by
  rw [put, any_key_numbered inj, if_neg (by simp), numbered, numbered, List.zipIdx_append]
  simp

end

variable {b : Builder} {name : String}

/-- What becomes of the tables of a builder when it answers something or refuses it. -/
def follows {α : Type} (b : Builder) (built : Except Fault (α × Builder)) :
    Except Fault α × Ledger :=
  match built with
  | .ok (x, b') => (.ok x, ofBuilder b')
  | .error fault => (.error fault, ofBuilder b)

@[simp] theorem follows_pure {α : Type} (x : α) (b b' : Builder) :
    follows b (pure (x, b')) = (.ok x, ofBuilder b') := rfl

@[simp] theorem follows_throw {α : Type} (fault : Fault) (b : Builder) :
    follows (α := α) b (throw fault) = (.error fault, ofBuilder b) := rfl

theorem checkName_bind {α : Type} (name : String) (b : Builder) (f : Unit → Writing α) :
    (checkName name >>= f) (ofBuilder b) =
      if Alphabet.isAcceptable name then
        if name ∉ b.names then f () (ofBuilder b)
        else (.error (.alreadyDeclared name), ofBuilder b)
      else (.error (.incorrectName name), ofBuilder b) := by
  have given : ((ofBuilder b).terminals.any (·.2 = name) ||
      (ofBuilder b).nonterminals.any (·.2 = name)) = decide (name ∈ b.names) := by
    simp only [ofBuilder, any_entry_numbered, Alphabet.names, List.mem_append, Bool.decide_or]
  rw [checkName, bind_assoc, Writing.require_bind, bind_assoc, Writing.tables_bind,
    Writing.require_bind, given]
  simp only [Bool.not_eq_true', decide_eq_false_iff_not]

theorem takeNumber_bind {α : Type} (kind : Kind) (counter : Ledger → UInt16)
    (setCounter : UInt16 → Ledger → Ledger) (f : UInt16 → Writing α) (l : Ledger) :
    (takeNumber kind counter setCounter >>= f) l =
      if counter l = 0xFFFF then (.error (.tooMany kind), l)
      else f (counter l) (setCounter (counter l + 1) l) := by
  rw [takeNumber, bind_assoc, Writing.tables_bind, bind_assoc, Writing.require_bind]
  by_cases last : counter l = 0xFFFF
  · simp [last]
  · simp only [last, ne_eq, not_false_eq_true, decide_true, if_true, if_false]
    rfl

theorem ofNat_eq_last_iff {n : Nat} (h : n ≤ numberLimit) :
    UInt16.ofNat n = 0xFFFF ↔ ¬ n < numberLimit := by
  rw [← UInt16.toNat_inj, UInt16.toNat_ofNat_of_lt' (Nat.lt_of_le_of_lt h (by decide))]
  exact ⟨fun e ↦ by rw [e]; decide, fun h' ↦ Nat.le_antisymm h (Nat.le_of_not_lt h')⟩

theorem toNat_ofNat_of_le {n : Nat} (h : n ≤ numberLimit) : (UInt16.ofNat n).toNat = n :=
  UInt16.toNat_ofNat_of_lt' (Nat.lt_of_le_of_lt h (by decide))

/-- Naming a symbol: the name is checked, and then there must be a number left. -/
theorem nameSymbol_ofBuilder {α : Type} {kind : Kind} {counter : Ledger → UInt16}
    {setCounter : UInt16 → Ledger → Ledger} {symbol : Nat → α}
    {enter : α → String → Ledger → Ledger} {size : Nat}
    (count : counter (ofBuilder b) = .ofNat size) (room : size ≤ numberLimit) (name : String) :
    nameSymbol kind counter setCounter symbol enter name (ofBuilder b) =
      if Alphabet.isAcceptable name then
        if name ∉ b.names then
          if size < numberLimit then
            (.ok (symbol size),
              enter (symbol size) name (setCounter (.ofNat (size + 1)) (ofBuilder b)))
          else (.error (.tooMany kind), ofBuilder b)
        else (.error (.alreadyDeclared name), ofBuilder b)
      else (.error (.incorrectName name), ofBuilder b) := by
  rw [nameSymbol, checkName_bind, takeNumber_bind, count]
  by_cases left : size < numberLimit
  · rw [if_neg (mt (ofNat_eq_last_iff room).1 (not_not_intro left)), Writing.update_bind,
      Writing.pure_apply, toNat_ofNat_of_le room, if_pos left, UInt16.ofNat_add]
    rfl
  · rw [if_pos ((ofNat_eq_last_iff room).2 left), if_neg left]

theorem terminal_ofBuilder (room : b.terminals.size ≤ numberLimit) (name : String) :
    terminal name (ofBuilder b) = follows b (Builder.terminal name b) := by
  have added := put_numbered terminal_injective b.terminals.toList name
  rw [terminal, nameSymbol_ofBuilder rfl room, Builder.terminal]
  by_cases acceptable : Alphabet.isAcceptable name = true
  · by_cases fresh : name ∉ b.names
    · by_cases left : b.terminals.size < numberLimit
      · simpa [acceptable, fresh, left, ofBuilder, Builder.withAlphabet, Alphabet.addTerminal]
          using added
      · simp [acceptable, fresh, left]
    · simp [acceptable, fresh]
  · simp [acceptable]

theorem nonterminal_ofBuilder (room : b.nonterminals.size ≤ numberLimit) (name : String) :
    nonterminal name (ofBuilder b) = follows b (Builder.nonterminal name b) := by
  have added := put_numbered nonterminal_injective b.nonterminals.toList name
  rw [nonterminal, nameSymbol_ofBuilder rfl room, Builder.nonterminal]
  by_cases acceptable : Alphabet.isAcceptable name = true
  · by_cases fresh : name ∉ b.names
    · by_cases left : b.nonterminals.size < numberLimit
      · simpa [acceptable, fresh, left, ofBuilder, Builder.withAlphabet, Alphabet.addNonterminal]
          using added
      · simp [acceptable, fresh, left]
    · simp [acceptable, fresh]
  · simp [acceptable]

theorem knows_ofBuilder (b : Builder) (s : Symbol) :
    (ofBuilder b).knows s = decide (b.Declares s) := by
  cases s with
  | terminal t =>
    have known := any_key_numbered terminal_injective b.terminals.toList t.index
    have reserved : t ≠ .endOfInput ↔ 0 < t.index :=
      (not_congr ⟨congrArg Terminal.index, congrArg Terminal.mk⟩).trans
        Nat.pos_iff_ne_zero.symm
    rw [Bool.eq_iff_iff, knows, Bool.and_eq_true, bne_iff_ne, decide_eq_true_iff, reserved]
    exact and_congr_right fun _ ↦ by rw [ofBuilder, known, decide_eq_true_iff, Array.length_toList]
  | nonterminal n =>
    have known := any_key_numbered nonterminal_injective b.nonterminals.toList n.index
    have reserved : n ≠ .augmented ↔ 0 < n.index :=
      (not_congr
        ⟨congrArg Nonterminal.index, congrArg Nonterminal.mk⟩).trans
        Nat.pos_iff_ne_zero.symm
    rw [Bool.eq_iff_iff, knows, Bool.and_eq_true, bne_iff_ne, decide_eq_true_iff, reserved]
    exact and_congr_right fun _ ↦ by rw [ofBuilder, known, decide_eq_true_iff, Array.length_toList]

theorem checkRule_bind {α : Type} (left : Nonterminal) (right : Array Symbol) (b : Builder)
    (f : Unit → Writing α) :
    (checkRule left right >>= f) (ofBuilder b) =
      if b.Declares (.nonterminal left) then
        if b.DeclaresAll right.toList then
          if ⟨left, right⟩ ∉ b.rules.toList then f () (ofBuilder b)
          else (.error .duplicateRule, ofBuilder b)
        else (.error .unknownRight, ofBuilder b)
      else (.error .unknownLeft, ofBuilder b) := by
  have known : right.toList.all (ofBuilder b).knows = decide (b.DeclaresAll right.toList) := by
    rw [Bool.eq_iff_iff, List.all_eq_true, decide_eq_true_iff, Alphabet.DeclaresAll]
    exact forall₂_congr fun s _ ↦ by rw [knows_ofBuilder, decide_eq_true_iff]
  have given : (ofBuilder b).rules.any (·.2 = ⟨left, right⟩) =
      decide (⟨left, right⟩ ∈ b.rules.toList) :=
    any_entry_numbered (fun i ↦ RuleId.mk (i + 1)) b.rules.toList ⟨left, right⟩
  rw [checkRule, bind_assoc, Writing.tables_bind, bind_assoc, Writing.require_bind, bind_assoc,
    Writing.require_bind, Writing.require_bind, knows_ofBuilder, known, given]
  simp only [Bool.not_eq_true', decide_eq_false_iff_not, decide_eq_true_iff]

theorem rule_ofBuilder (room : b.rules.size + 1 ≤ numberLimit) (left : Nonterminal)
    (right : Array Symbol) :
    rule left right (ofBuilder b) = follows b (Builder.rule left right b) := by
  have last : (ofBuilder b).nextRule = 0xFFFF ↔ ¬ b.rules.size + 1 < numberLimit :=
    ofNat_eq_last_iff room
  rw [rule, checkRule_bind, takeNumber_bind, Builder.rule]
  by_cases hl : b.toAlphabet.Declares (.nonterminal left)
  · by_cases hr : b.toAlphabet.DeclaresAll right.toList
    · by_cases fresh : ⟨left, right⟩ ∉ b.rules.toList
      · by_cases more : b.rules.size + 1 < numberLimit
        · have number : (ofBuilder b).nextRule.toNat = b.rules.size + 1 := toNat_ofNat_of_le room
          have added := put_numbered ruleId_injective b.rules.toList ⟨left, right⟩
          rw [if_neg (mt last.1 (not_not_intro more)), Writing.update_bind, Writing.pure_apply,
            number, if_pos hl, if_pos hr, if_pos fresh, dif_pos hl, dif_pos hr, dif_pos fresh,
            if_pos more]
          simpa [ofBuilder, Builder.addRule, UInt16.ofNat_add] using added
        · rw [if_pos (last.2 more), if_pos hl, if_pos hr, if_pos fresh, dif_pos hl, dif_pos hr,
            dif_pos fresh, if_neg more]
          rfl
      · rw [if_pos hl, if_pos hr, if_neg fresh, dif_pos hl, dif_pos hr, dif_neg fresh]
        rfl
    · rw [if_pos hl, if_neg hr, dif_pos hl, dif_neg hr]
      rfl
  · rw [if_neg hl, dif_neg hl]
    rfl

theorem startFrom_ofBuilder (b : Builder) (symbol : Nonterminal) :
    startFrom symbol (ofBuilder b) = follows b (Builder.startFrom symbol b) := by
  rw [startFrom, Writing.tables_bind, Writing.require_bind, knows_ofBuilder, Builder.startFrom]
  by_cases declared : b.toAlphabet.Declares (.nonterminal symbol)
  · simp [declared]
    rfl
  · simp [declared]

end Ledger

namespace Declaration

/-- Writes a declaration into the tables. -/
def write : Declaration → Writing Declared
  | .terminal name => .terminal <$> Ledger.terminal name
  | .nonterminal name => .nonterminal <$> Ledger.nonterminal name
  | .rule left right => .rule <$> Ledger.rule left right
  | .start symbol => (fun _ => .start) <$> Ledger.startFrom symbol

/-- Writes declarations into the tables, one after another, whether they are refused or not. -/
def writeEach : List Declaration → Ledger → List (Except Fault Declared) × Ledger
  | [], l => ([], l)
  | d :: ds, l => (writeEach ds (d.write l).2).map ((d.write l).1 :: ·) id

end Declaration

namespace Ledger

variable {b : Builder}

theorem map_ofBuilder {α β : Type} {x : Writing α} {y : Build α}
    (h : x (ofBuilder b) = follows b (y b)) (f : α → β) :
    (f <$> x) (ofBuilder b) = follows b ((f <$> y) b) := by
  change (x >>= fun a ↦ pure (f a)) (ofBuilder b) = follows b (y b >>= fun (a, b) ↦ pure (f a, b))
  rw [Writing.bind_apply, h]
  cases y b <;> rfl

/-- A declaration does to the tables of a builder what it does to the builder. -/
theorem write_ofBuilder (room : b.Fits) (d : Declaration) :
    d.write (ofBuilder b) = follows b (d.run b) := by
  cases d with
  | terminal name => exact map_ofBuilder (terminal_ofBuilder room.terminals name) _
  | nonterminal name => exact map_ofBuilder (nonterminal_ofBuilder room.nonterminals name) _
  | rule left right => exact map_ofBuilder (rule_ofBuilder room.rules left right) _
  | start symbol => exact map_ofBuilder (startFrom_ofBuilder b symbol) _

/-- So do declarations one after another. -/
theorem writeEach_ofBuilder (room : b.Fits) (ds : List Declaration) :
    Declaration.writeEach ds (ofBuilder b) =
      ((Declaration.runEach ds b).1, ofBuilder (Declaration.runEach ds b).2) := by
  induction ds generalizing b with
  | nil => rfl
  | cons d ds ih =>
    rw [Declaration.writeEach, write_ofBuilder room]
    cases h : d.run b with
    | error fault =>
      rw [Declaration.runEach_cons_of_error h]
      change Prod.map _ id (Declaration.writeEach ds (ofBuilder b)) = _
      rw [ih room]
      rfl
    | ok p =>
      obtain ⟨x, b'⟩ := p
      rw [Declaration.runEach_cons_of_ok h]
      change Prod.map _ id (Declaration.writeEach ds (ofBuilder b')) = _
      rw [ih ((Declaration.run_eq_ok_iff.1 h).fits room)]
      rfl

theorem initial_eq : initial = ofBuilder .empty := rfl

end Ledger

end SimpleLR

import ParserGenerator.Proofs.Description.Lowered

/-!
# The productions of a description

The plan of a description lists the productions that are made of it, in the order of their numbers. What is
made up on the way, helpers and actions, is told apart there from the words of the description, whatever
names it is given.
-/

namespace ParserGenerator

/-- What stands in a production: a word of the description or something made up. -/
inductive Sign where
  | word (name : String)
  | helper (h : Helper) (n : Nat)
  | action (n : Nat)
  | marker
  deriving DecidableEq

namespace Sign

/-- The name of a symbol for the sign. -/
def name : Sign → String
  | word name => name
  | helper h n => h.name n
  | action n => Grammar.actionName n
  | marker => Grammar.startMarkerName

def IsMadeUp : Sign → Prop
  | word _ => False
  | _ => True

end Sign

theorem Grammar.toList_actionName (n : Nat) :
    (actionName n).toList = ['%', 'a', 'c', 't', 'i', 'o', 'n'] ++ Nat.toDigits 10 n := by
  simp [actionName, toString]

theorem Grammar.actionName_inj {m n : Nat} (eq : actionName m = actionName n) : m = n := by
  have chars := congrArg String.toList eq
  rw [toList_actionName, toList_actionName] at chars
  exact toDigits_inj (List.append_cancel_left chars)

/-- What is made up has a name of its own among all that is made up. -/
theorem Sign.eq_of_name {x y : Sign} (made : x.IsMadeUp) (made' : y.IsMadeUp) (same : x.name = y.name) :
    x = y := by
  cases x with
  | word => exact made.elim
  | helper h n =>
    cases y with
    | word => exact made'.elim
    | helper k m =>
      obtain ⟨rfl, rfl⟩ := Helper.name_inj same
      rfl
    | action m => exact absurd (.inr ⟨m, same⟩) (h.not_marked n)
    | marker => exact absurd (.inl same) (h.not_marked n)
  | action n =>
    cases y with
    | word => exact made'.elim
    | helper k m => exact absurd (.inr ⟨n, same.symm⟩) (k.not_marked m)
    | action m => rw [Grammar.actionName_inj same]
    | marker => exact absurd same (Grammar.actionName_ne (by decide))
  | marker =>
    cases y with
    | word => exact made'.elim
    | helper k m => exact absurd (.inl same.symm) (k.not_marked m)
    | action m => exact absurd same.symm (Grammar.actionName_ne (by decide))
    | marker => rfl

/-- A production over an alphabet. -/
structure Rewriting (α : Type) where
  left : α
  right : List α
  action : Option String := none
  label : Option String := none
  deriving DecidableEq

def Rewriting.map {α β : Type} (f : α → β) (w : Rewriting α) : Rewriting β :=
  ⟨f w.left, w.right.map f, w.action, w.label⟩

/-- How many helpers of each sort are made up, the code of each action and whether it ends an alternative,
and the productions. -/
structure Plan where
  count : Helper → Nat := fun _ => 0
  blocks : List (String × Bool) := []
  rewritings : List (Rewriting Sign) := []

namespace Plan

variable (p : Plan)

def next (h : Helper) : Sign := .helper h (p.count h + 1)

def bump (h : Helper) : Plan := { p with count := fun k => if k = h then p.count h + 1 else p.count k }

def nextAction : Sign := .action (p.blocks.length + 1)

def act (code : String) (trailing : Bool) : Plan := { p with blocks := p.blocks ++ [(code, trailing)] }

def add (w : Rewriting Sign) : Plan := { p with rewritings := p.rewritings ++ [w] }

/-- A production with its action, which becomes the last sign. -/
def produce (left : Sign) (right : List Sign) (label : Option String) : Option String → Plan
  | none => p.add ⟨left, right, none, label⟩
  | some code => (p.act code true).add ⟨left, right ++ [p.nextAction], some code, label⟩

/-- A helper with an empty production and another one. -/
def help (h : Helper) (right : List Sign) : Plan :=
  ((p.bump h).produce (p.next h) [] none none).produce (p.next h) right none none

/-- The signs for a sign with a suffix. -/
def suffixed (base : Sign) : Suffix → List Sign × Plan
  | .once => ([base], p)
  | .opt => ([p.next .option], p.help .option [base])
  | .star => ([p.next .repetition], p.help .repetition [base, p.next .repetition])
  | .plus => ([base, p.next .repetition], p.help .repetition [base, p.next .repetition])

mutual

def atom (p : Plan) : Atom → List Sign × Plan
  | .name ident suffix _ => p.suffixed (.word ident) suffix
  | .literal text suffix _ => p.suffixed (.word text) suffix
  | .group as suffix _ => ((p.bump .group).alternatives (p.next .group) as).suffixed (p.next .group) suffix
  | .action code _ => ([p.nextAction], p.act code false)

/-- The signs before a trailing action, and its code. -/
def items (p : Plan) : List Atom → List Sign × Option String × Plan
  | [] => ([], none, p)
  | [.action code _] => ([], some code, p)
  | a :: as =>
    let first := p.atom a
    let rest := first.2.items as
    (first.1 ++ rest.1, rest.2)

def alternative (p : Plan) (left : Sign) : Alternative → Plan
  | .mk items label =>
    let signs := p.items items
    signs.2.2.produce left signs.1 label signs.2.1

def alternatives (p : Plan) (left : Sign) : List Alternative → Plan
  | [] => p
  | a :: as => (p.alternative left a).alternatives left as

end

theorem items_cons {a : Atom} {as : List Atom} (other : ∀ code span, a = .action code span → as = [] → False) :
    p.items (a :: as) = ((p.atom a).1 ++ ((p.atom a).2.items as).1, ((p.atom a).2.items as).2) := by
  rw [Plan.items]
  exact other

/-! ## Signs in their places -/

variable {p} {p' p'' : Plan} {W : List String} {pending : List Sign} {x base left : Sign} {h : Helper}

/-- The second plan has at least the helpers and actions of the first. -/
structure Extends (p p' : Plan) : Prop where
  counts : ∀ h, p.count h ≤ p'.count h
  blocks : p.blocks.length ≤ p'.blocks.length

theorem Extends.refl (p : Plan) : p.Extends p := ⟨fun _ => le_rfl, le_rfl⟩

theorem Extends.trans (h : p.Extends p') (h' : p'.Extends p'') : p.Extends p'' :=
  ⟨fun k => (h.counts k).trans (h'.counts k), h.blocks.trans h'.blocks⟩

theorem extends_bump (p : Plan) (h : Helper) : p.Extends (p.bump h) := by
  refine ⟨fun k => ?_, le_rfl⟩
  simp only [bump]
  split
  · rename_i same
    rw [same]
    exact Nat.le_succ _
  · exact le_rfl

/-- The helpers of the bumped plan are those of before and the next one. -/
theorem upto_bump {p : Plan} {h k : Helper} {n : Nat} (upto : n ≤ (p.bump h).count k) :
    n ≤ p.count k ∨ k = h ∧ n ≤ p.count h + 1 := by
  simp only [bump] at upto
  split at upto
  · exact .inr ⟨‹_›, upto⟩
  · exact .inl upto

theorem extends_act (p : Plan) (code : String) (trailing : Bool) : p.Extends (p.act code trailing) :=
  ⟨fun _ => le_rfl, by simp [act]⟩

theorem extends_produce (p : Plan) (left : Sign) (right : List Sign) (label : Option String) :
    ∀ action, p.Extends (p.produce left right label action)
  | none => ⟨fun _ => le_rfl, le_rfl⟩
  | some code => ⟨fun _ => le_rfl, (p.extends_act code true).blocks⟩

theorem extends_suffixed (p : Plan) (base : Sign) : ∀ suffix, p.Extends (p.suffixed base suffix).2
  | .once => .refl p
  | .opt => ⟨(p.extends_bump .option).counts, le_rfl⟩
  | .star | .plus => ⟨(p.extends_bump .repetition).counts, le_rfl⟩

mutual

theorem extends_atom : ∀ (a : Atom) (p : Plan), p.Extends (p.atom a).2
  | .name _ suffix _, p | .literal _ suffix _, p => p.extends_suffixed _ suffix
  | .group as suffix _, p =>
    ((p.extends_bump .group).trans (extends_alternatives as _ _)).trans (extends_suffixed _ _ suffix)
  | .action code _, p => p.extends_act code false

theorem extends_items : ∀ (as : List Atom) (p : Plan), p.Extends (p.items as).2.2
  | [], p => .refl p
  | a :: as, p => by
    rcases a.trailing_cases as with ⟨code, span, rfl, rfl⟩ | other
    · exact .refl p
    · rw [p.items_cons other]
      exact (extends_atom a p).trans (extends_items as _)

theorem extends_alternative : ∀ (a : Alternative) (left : Sign) (p : Plan), p.Extends (p.alternative left a)
  | .mk items label, left, p => (extends_items items p).trans (extends_produce _ left _ label _)

theorem extends_alternatives : ∀ (as : List Alternative) (left : Sign) (p : Plan),
    p.Extends (p.alternatives left as)
  | [], _, p => .refl p
  | a :: as, left, p => (extends_alternative a left p).trans (extends_alternatives as left _)

end

/-- The sign is one of the words, or is made up in the plan for a part of a description. -/
def Knows (W : List String) (p : Plan) : Sign → Prop
  | .word name => name ∈ W
  | .helper h n => 0 < n ∧ n ≤ p.count h
  | .action n => 0 < n ∧ n ≤ p.blocks.length
  | .marker => False

theorem Extends.knows (h : p.Extends p') (known : p.Knows W x) : p'.Knows W x := by
  cases x with
  | word name => exact known
  | helper k n => exact ⟨known.1, known.2.trans (h.counts k)⟩
  | action n => exact ⟨known.1, known.2.trans h.blocks⟩
  | marker => exact known

theorem knows_next (p : Plan) (h : Helper) : (p.bump h).Knows W (p.next h) := by
  refine ⟨Nat.succ_pos _, ?_⟩
  simp [bump]

/-- How often an action stands. -/
def uses (p : Plan) (n : Nat) : Nat := (p.rewritings.flatMap Rewriting.right).count (.action n)

/-- The plan is sound with signs that are yet to be placed: all signs are known, and every action stands, or
is to be placed, exactly once. -/
structure Sound (W : List String) (p : Plan) (pending : List Sign) : Prop where
  known : ∀ x ∈ pending, p.Knows W x
  written : ∀ w ∈ p.rewritings, ∀ x ∈ w.left :: w.right, p.Knows W x
  once : ∀ n, p.uses n + pending.count (.action n) = if 0 < n ∧ n ≤ p.blocks.length then 1 else 0

namespace Sound

theorem empty (W : List String) : Sound W {} [] := by
  refine ⟨by simp, by simp, fun n => ?_⟩
  rw [if_neg (by simp only [List.length_nil]; omega)]
  rfl

theorem push (sound : p.Sound W pending) (known : p.Knows W x) (other : ∀ n, x ≠ .action n) :
    p.Sound W (pending ++ [x]) where
  known := List.forall_mem_append.2 ⟨sound.known, by simpa using known⟩
  written := sound.written
  once := by
    intro n
    rw [List.count_append, List.count_singleton, if_neg (by simpa using other n), Nat.add_zero, sound.once]

theorem pushAll (sound : p.Sound W pending) {signs : List Sign}
    (known : ∀ x ∈ signs, p.Knows W x ∧ ∀ n, x ≠ .action n) : p.Sound W (pending ++ signs) := by
  induction signs generalizing pending with
  | nil => simpa using sound
  | cons x signs ih =>
    obtain ⟨first, later⟩ := List.forall_mem_cons.1 known
    simpa using ih (sound.push first.1 first.2) later

theorem bump (sound : p.Sound W pending) (h : Helper) : (p.bump h).Sound W pending :=
  ⟨fun x mem => (p.extends_bump h).knows (sound.known x mem),
    fun w mem x inside => (p.extends_bump h).knows (sound.written w mem x inside), sound.once⟩

theorem act (sound : p.Sound W pending) (code : String) (trailing : Bool) :
    (p.act code trailing).Sound W (pending ++ [p.nextAction]) := by
  have later := p.extends_act code trailing
  have length : (p.act code trailing).blocks.length = p.blocks.length + 1 := by simp [Plan.act]
  refine ⟨List.forall_mem_append.2 ⟨fun x mem => later.knows (sound.known x mem), ?_⟩,
    fun w mem x inside => later.knows (sound.written w mem x inside), fun n => ?_⟩
  · simpa [nextAction, Knows] using length.ge
  · have before : p.uses n + pending.count (.action n) = _ := sound.once n
    have uses : (p.act code trailing).uses n = p.uses n := rfl
    rw [uses, List.count_append, ← Nat.add_assoc, before, length, nextAction, List.count_singleton]
    simp only [beq_iff_eq, Sign.action.injEq]
    split_ifs <;> omega

/-- Signs that are to be placed are placed in a production. -/
theorem add {right : List Sign} (sound : p.Sound W (pending ++ right)) (known : p.Knows W left)
    (action label : Option String) : (p.add ⟨left, right, action, label⟩).Sound W pending := by
  obtain ⟨before, inside⟩ := List.forall_mem_append.1 sound.known
  refine ⟨before, ?_, fun n => ?_⟩
  · refine List.forall_mem_append.2 ⟨sound.written, ?_⟩
    simpa using ⟨known, inside⟩
  · have once := sound.once n
    rw [List.count_append] at once
    have uses : (p.add ⟨left, right, action, label⟩).uses n = p.uses n + right.count (.action n) := by
      simp [Plan.uses, Plan.add]
    have blocks : (p.add ⟨left, right, action, label⟩).blocks = p.blocks := rfl
    rw [uses, blocks, ← once]
    omega

theorem produce {right : List Sign} (sound : p.Sound W (pending ++ right)) (known : p.Knows W left)
    (label : Option String) : ∀ action, (p.produce left right label action).Sound W pending
  | none => sound.add known none label
  | some code => by
    have acted := sound.act code true
    rw [List.append_assoc] at acted
    exact acted.add ((p.extends_act code true).knows known) (some code) label

theorem help (sound : p.Sound W pending) {right : List Sign}
    (known : ∀ x ∈ right, (p.bump h).Knows W x ∧ ∀ n, x ≠ .action n) : (p.help h right).Sound W pending := by
  have new : (p.bump h).Knows W (p.next h) := knows_next p h
  have empty : ((p.bump h).produce (p.next h) [] none none).Sound W pending :=
    Sound.produce (by simpa using sound.bump h) new none none
  have later : ((p.bump h).produce (p.next h) [] none none).Knows W (p.next h) := new
  exact (empty.pushAll known).produce later none none

theorem suffixed (sound : p.Sound W pending) (base : Sign) (known : p.Knows W base) (other : ∀ n, base ≠ .action n)
    (suffix : Suffix) : (p.suffixed base suffix).2.Sound W (pending ++ (p.suffixed base suffix).1) := by
  have old : ∀ h, (p.bump h).Knows W base ∧ ∀ n, base ≠ .action n :=
    fun h => ⟨(p.extends_bump h).knows known, other⟩
  have new : ∀ h, (p.bump h).Knows W (p.next h) ∧ ∀ n, p.next h ≠ .action n :=
    fun h => ⟨knows_next p h, fun _ => nofun⟩
  have both : ∀ h, ∀ x ∈ [base, p.next h], (p.bump h).Knows W x ∧ ∀ n, x ≠ .action n :=
    fun h => List.forall_mem_cons.2 ⟨old h, by simpa using new h⟩
  cases suffix with
  | once => exact sound.push known other
  | opt => exact (sound.help (by simpa using old .option)).push (new _).1 (new _).2
  | star => exact (sound.help (both .repetition)).push (new _).1 (new _).2
  | plus => exact (sound.help (both .repetition)).pushAll (both .repetition)

end Sound

end Plan

/-! ## Words of atoms -/

section

variable (W : List String)

/-- The identifiers and the literals are among the words. -/
def Atom.Within (a : Atom) : Prop := a.identifiers ⊆ W ∧ a.ownLiterals ++ a.innerLiterals ⊆ W

def Atom.AllWithin (as : List Atom) : Prop :=
  Atom.identifiersOfAll as ⊆ W ∧ Atom.ownLiteralsOfAll as ++ Atom.innerLiteralsOfAll as ⊆ W

def Alternative.Within (a : Alternative) : Prop := a.identifiers ⊆ W ∧ a.ownLiterals ++ a.innerLiterals ⊆ W

def Alternative.AllWithin (as : List Alternative) : Prop :=
  Alternative.identifiersOfAll as ⊆ W ∧ Alternative.ownLiteralsOfAll as ++ Alternative.innerLiteralsOfAll as ⊆ W

end

section

variable {W : List String}

theorem Atom.AllWithin.cons {a : Atom} {as : List Atom} (within : AllWithin W (a :: as)) :
    a.Within W ∧ AllWithin W as := by
  simp only [AllWithin, Within, identifiersOfAll, ownLiteralsOfAll, innerLiteralsOfAll, List.append_subset] at *
  tauto

theorem Alternative.AllWithin.cons {a : Alternative} {as : List Alternative} (within : AllWithin W (a :: as)) :
    a.Within W ∧ AllWithin W as := by
  simp only [AllWithin, Within, identifiersOfAll, ownLiteralsOfAll, innerLiteralsOfAll, List.append_subset] at *
  tauto

theorem Atom.Within.mem_name {ident : String} {suffix : Suffix} {span : Span}
    (within : (Atom.name ident suffix span).Within W) : ident ∈ W := within.1 List.mem_cons_self

theorem Atom.Within.mem_literal {text : String} {suffix : Suffix} {span : Span}
    (within : (Atom.literal text suffix span).Within W) : text ∈ W := within.2 List.mem_cons_self

end

namespace Plan

variable {p p' : Plan} {W : List String} {pending : List Sign} {left : Sign} {h : Helper}

mutual

theorem Sound.atom : ∀ (a : Atom) {p : Plan} {pending : List Sign}, p.Sound W pending → a.Within W →
    (p.atom a).2.Sound W (pending ++ (p.atom a).1)
  | .name ident suffix _, _, _, sound, within =>
    sound.suffixed (.word ident) within.mem_name (fun _ => nofun) suffix
  | .literal text suffix _, _, _, sound, within =>
    sound.suffixed (.word text) within.mem_literal (fun _ => nofun) suffix
  | .group as suffix _, p, _, sound, within => by
    have known := knows_next (W := W) p .group
    have made := Sound.alternatives as (sound.bump .group) known within
    exact made.suffixed _ ((extends_alternatives as _ _).knows known) (fun _ => nofun) suffix
  | .action code _, _, _, sound, _ => sound.act code false

theorem Sound.items : ∀ (as : List Atom) {p : Plan} {pending : List Sign}, p.Sound W pending →
    Atom.AllWithin W as → (p.items as).2.2.Sound W (pending ++ (p.items as).1)
  | [], _, _, sound, _ => by simpa [Plan.items] using sound
  | a :: as, p, _, sound, within => by
    rcases a.trailing_cases as with ⟨code, span, rfl, rfl⟩ | other
    · simpa [Plan.items] using sound
    · obtain ⟨first, later⟩ := within.cons
      have rest := Sound.items as (Sound.atom a sound first) later
      rw [List.append_assoc] at rest
      rwa [p.items_cons other]

theorem Sound.alternative : ∀ (a : Alternative) {left : Sign} {p : Plan} {pending : List Sign},
    p.Sound W pending → p.Knows W left → a.Within W → (p.alternative left a).Sound W pending
  | .mk items label, _, _, _, sound, known, within =>
    (Sound.items items sound within).produce ((extends_items items _).knows known) label _

theorem Sound.alternatives : ∀ (as : List Alternative) {left : Sign} {p : Plan} {pending : List Sign},
    p.Sound W pending → p.Knows W left → Alternative.AllWithin W as →
    (p.alternatives left as).Sound W pending
  | [], _, _, _, sound, _, _ => sound
  | a :: as, left, _, _, sound, known, within => by
    obtain ⟨first, later⟩ := within.cons
    exact Sound.alternatives as (Sound.alternative a sound known first)
      ((extends_alternative a left _).knows known) later

end

/-! ## Optional and repeated signs -/

/-- The productions with a left-hand side. -/
def rowsOf (p : Plan) (left : Sign) : List (Rewriting Sign) := p.rewritings.filter (·.left = left)

/-- What a helper that is not for a group goes on with. -/
def goesOn (h : Helper) (n : Nat) (base : Sign) : List Sign :=
  if h = .repetition then [base, .helper h n] else [base]

/-- The sign is a word or a helper for a group: alternatives are written for those alone. -/
def Leads (p : Plan) : Sign → Prop
  | .word _ => True
  | .helper .group n => n ≤ p.count .group
  | _ => False

theorem Extends.leads (h : p.Extends p') : ∀ {left}, p.Leads left → p'.Leads left
  | .word _, _ => trivial
  | .helper .group _, upto => Nat.le_trans upto (h.counts .group)

theorem leads_next (p : Plan) : (p.bump .group).Leads (p.next .group) := by simp [next, Leads, bump]

/-- Every helper for an optional or repeated sign has one empty production and one that goes on. -/
structure Paired (p : Plan) : Prop where
  made : ∀ {w h n}, w ∈ p.rewritings → w.left = .helper h n → n ≤ p.count h
  pairs : ∀ {h n}, h ≠ .group → 0 < n → n ≤ p.count h → ∃ base, p.rowsOf (.helper h n) =
    [⟨.helper h n, [], none, none⟩, ⟨.helper h n, goesOn h n base, none, none⟩]

namespace Paired

theorem empty : Paired {} := ⟨nofun, fun _ above upto => absurd upto (Nat.not_le.2 above)⟩

theorem bump_group (paired : p.Paired) : (p.bump .group).Paired where
  made mem left := (paired.made mem left).trans ((p.extends_bump .group).counts _)
  pairs other above upto := by
    simp only [bump, if_neg other] at upto
    exact paired.pairs other above upto

theorem act (paired : p.Paired) (code : String) (trailing : Bool) : (p.act code trailing).Paired :=
  ⟨paired.made, paired.pairs⟩

theorem add (paired : p.Paired) (leads : p.Leads left) (right : List Sign) (action label : Option String) :
    (p.add ⟨left, right, action, label⟩).Paired := by
  have only : ∀ {h n}, left = .helper h n → h = .group ∧ n ≤ p.count h := by
    rintro h n rfl
    cases h with
    | group => exact ⟨rfl, leads⟩
    | _ => exact leads.elim
  constructor
  · intro w h n mem eq
    rcases List.mem_append.1 mem with old | new
    · exact paired.made old eq
    · rw [List.mem_singleton.1 new] at eq
      exact (only eq).2
  · intro h n other above upto
    obtain ⟨base, rows⟩ := paired.pairs other above upto
    have place : left ≠ .helper h n := fun eq => other (only eq).1
    refine ⟨base, ?_⟩
    rw [rowsOf, Plan.add, List.filter_append, ← rowsOf, rows]
    simp [place]

theorem produce (paired : p.Paired) (leads : p.Leads left) (right : List Sign) (label : Option String) :
    ∀ action, (p.produce left right label action).Paired
  | none => paired.add leads right none label
  | some code => (paired.act code true).add ((p.extends_act code true).leads leads) _ (some code) label

theorem help (paired : p.Paired) (other : h ≠ .group) (base : Sign) :
    (p.help h (goesOn h (p.count h + 1) base)).Paired := by
  have rewritings : (p.help h (goesOn h (p.count h + 1) base)).rewritings = p.rewritings ++
      [⟨p.next h, [], none, none⟩, ⟨p.next h, goesOn h (p.count h + 1) base, none, none⟩] :=
    List.append_assoc ..
  have counts := (p.extends_bump h).counts
  constructor
  · intro w k n mem left
    rw [rewritings] at mem
    rcases List.mem_append.1 mem with old | new
    · exact (paired.made old left).trans (counts k)
    · have eq : w.left = p.next h := by
        simp only [List.mem_cons, List.not_mem_nil, or_false] at new
        rcases new with rfl | rfl <;> rfl
      obtain ⟨rfl, rfl⟩ := Sign.helper.inj (eq.symm.trans left)
      simp [Plan.help, Plan.produce, Plan.add, bump]
  · intro k n away above upto
    replace upto : n ≤ (p.bump h).count k := upto
    rw [rowsOf, rewritings, List.filter_append, ← rowsOf]
    by_cases old : n ≤ p.count k
    · obtain ⟨base', rows⟩ := paired.pairs away above old
      have place : p.next h ≠ .helper k n := by
        intro eq
        obtain ⟨rfl, rfl⟩ := Sign.helper.inj eq
        omega
      exact ⟨base', by simp [rows, place]⟩
    · obtain ⟨rfl, above⟩ := (upto_bump upto).resolve_left old
      obtain rfl : n = p.count k + 1 := by omega
      have none : p.rowsOf (.helper k (p.count k + 1)) = [] := by
        rw [rowsOf, List.filter_eq_nil_iff]
        exact fun w mem left => old (paired.made mem (of_decide_eq_true left))
      exact ⟨base, by simp [none, next]⟩

theorem suffixed (paired : p.Paired) (base : Sign) : ∀ suffix, (p.suffixed base suffix).2.Paired
  | .once => paired
  | .opt => paired.help (by decide) base
  | .star | .plus => paired.help (by decide) base

end Paired

mutual

theorem Paired.atom : ∀ (a : Atom) {p : Plan}, p.Paired → (p.atom a).2.Paired
  | .name _ suffix _, _, paired | .literal _ suffix _, _, paired => paired.suffixed _ suffix
  | .group as suffix _, p, paired => (Paired.alternatives as paired.bump_group p.leads_next).suffixed _ suffix
  | .action code _, _, paired => paired.act code false

theorem Paired.items : ∀ (as : List Atom) {p : Plan}, p.Paired → (p.items as).2.2.Paired
  | [], _, paired => paired
  | a :: as, p, paired => by
    rcases a.trailing_cases as with ⟨code, span, rfl, rfl⟩ | other
    · exact paired
    · rw [p.items_cons other]
      exact Paired.items as (Paired.atom a paired)

theorem Paired.alternative : ∀ (a : Alternative) {left : Sign} {p : Plan}, p.Paired → p.Leads left →
    (p.alternative left a).Paired
  | .mk items label, _, _, paired, leads =>
    (Paired.items items paired).produce ((extends_items items _).leads leads) _ label _

theorem Paired.alternatives : ∀ (as : List Alternative) {left : Sign} {p : Plan}, p.Paired → p.Leads left →
    (p.alternatives left as).Paired
  | [], _, _, paired, _ => paired
  | a :: as, _, _, paired, leads =>
    Paired.alternatives as (Paired.alternative a paired leads) ((extends_alternative a _ _).leads leads)

end

end Plan

namespace Description

variable (d : Description)

def plan : Plan := d.rules.foldl (fun p r => p.alternatives (.word r.name) r.alternatives) {}

/-- The productions by their numbers. -/
def rewritings : List (Rewriting Sign) :=
  ⟨.marker, (d.startName.map Sign.word).toList, none, none⟩ :: d.plan.rewritings

/-- The identifiers and literals that are written for symbols. -/
def words : List String := d.startName.toList ++ d.identifiers ++ d.literals

variable {d}

theorem words_of_rule {r : Rule} (mem : r ∈ d.rules) :
    r.name ∈ d.words ∧ Alternative.AllWithin d.words r.alternatives := by
  have identifier : ∀ name ∈ d.identifiers, name ∈ d.words := fun name inside => by simp [words, inside]
  refine ⟨identifier _ (Lowering.mem_identifiers.2 (.inr (.inr ⟨r, mem, .inl rfl⟩))), fun name inside =>
    identifier _ (Lowering.mem_identifiers.2 (.inr (.inr ⟨r, mem, .inr inside⟩))), fun text inside => ?_⟩
  exact List.mem_append_right _ (Lowering.mem_literals.2 (.inr ⟨r, mem, inside⟩))

theorem sound_plan (d : Description) : d.plan.Sound d.words [] := by
  have all : ∀ {rules : List Rule} {p : Plan}, (∀ r ∈ rules, r ∈ d.rules) → p.Sound d.words [] →
      (rules.foldl (fun p r => p.alternatives (.word r.name) r.alternatives) p).Sound d.words [] := by
    intro rules
    induction rules with
    | nil => exact fun _ sound => sound
    | cons r rules ih =>
      intro p inside sound
      obtain ⟨first, later⟩ := List.forall_mem_cons.1 inside
      obtain ⟨name, within⟩ := words_of_rule first
      have known : p.Knows d.words (.word r.name) := name
      exact ih later (Plan.Sound.alternatives r.alternatives sound known within)
  exact all (fun _ mem => mem) (.empty _)

theorem paired_plan (d : Description) : d.plan.Paired := by
  have all : ∀ (rules : List Rule) {p : Plan}, p.Paired →
      (rules.foldl (fun p r => p.alternatives (.word r.name) r.alternatives) p).Paired := by
    intro rules
    induction rules with
    | nil => exact fun paired => paired
    | cons r rules ih =>
      intro p paired
      have leads : p.Leads (.word r.name) := trivial
      exact ih (Plan.Paired.alternatives r.alternatives paired leads)
  exact all d.rules .empty

end Description

/-! ## Blocks of action code -/

mutual

/-- The code of the blocks in an atom, and that none of them ends an alternative but inside it. -/
def Atom.blocks : Atom → List (String × Bool)
  | .group as _ _ => Alternative.blocksOfAll as
  | .action code _ => [(code, false)]
  | _ => []

/-- The code of the blocks in a row of atoms; one at the end ends the alternative. -/
def Atom.blocksOfAll : List Atom → List (String × Bool)
  | [] => []
  | [.action code _] => [(code, true)]
  | a :: as => a.blocks ++ Atom.blocksOfAll as

def Alternative.blocks : Alternative → List (String × Bool)
  | .mk items _ => Atom.blocksOfAll items

def Alternative.blocksOfAll : List Alternative → List (String × Bool)
  | [] => []
  | a :: as => a.blocks ++ Alternative.blocksOfAll as

end

/-- The blocks of a description in the order in which they are written: the code of each, and whether it ends
an alternative. -/
def Description.blocks (d : Description) : List (String × Bool) :=
  d.rules.flatMap fun r => Alternative.blocksOfAll r.alternatives

namespace Plan

theorem blocks_suffixed (p : Plan) (base : Sign) : ∀ suffix, (p.suffixed base suffix).2.blocks = p.blocks
  | .once | .opt | .star | .plus => rfl

theorem blocks_produce (p : Plan) (left : Sign) (right : List Sign) (label : Option String) :
    ∀ action, (p.produce left right label action).blocks = p.blocks ++ (action.map (·, true)).toList
  | none => (List.append_nil _).symm
  | some _ => rfl

mutual

theorem blocks_atom : ∀ (a : Atom) (p : Plan), (p.atom a).2.blocks = p.blocks ++ a.blocks
  | .name _ suffix _, p | .literal _ suffix _, p =>
    (p.blocks_suffixed _ suffix).trans (List.append_nil _).symm
  | .group as suffix _, p => by
    rw [Plan.atom, blocks_suffixed, blocks_alternatives as]
    rfl
  | .action _ _, _ => rfl

theorem blocks_items : ∀ (as : List Atom) (p : Plan),
    (p.items as).2.2.blocks ++ ((p.items as).2.1.map (·, true)).toList = p.blocks ++ Atom.blocksOfAll as
  | [], p => rfl
  | a :: as, p => by
    rcases a.trailing_cases as with ⟨code, span, rfl, rfl⟩ | other
    · rfl
    · rw [p.items_cons other, Atom.blocksOfAll, ← List.append_assoc, ← blocks_atom a]
      · exact blocks_items as _
      · exact other

theorem blocks_alternative : ∀ (a : Alternative) (p : Plan) (left : Sign),
    (p.alternative left a).blocks = p.blocks ++ a.blocks
  | .mk items label, p, left => by
    rw [Plan.alternative, blocks_produce, blocks_items, Alternative.blocks]

theorem blocks_alternatives : ∀ (as : List Alternative) (p : Plan) (left : Sign),
    (p.alternatives left as).blocks = p.blocks ++ Alternative.blocksOfAll as
  | [], p, left => (List.append_nil _).symm
  | a :: as, p, left => by
    rw [Plan.alternatives, blocks_alternatives as, blocks_alternative a, List.append_assoc]
    rfl

end

end Plan

/-- The actions of the plan are the blocks in the order in which they are written. -/
theorem Description.blocks_plan (d : Description) : d.plan.blocks = d.blocks := by
  have all : ∀ (rules : List Rule) (p : Plan),
      (rules.foldl (fun p r => p.alternatives (.word r.name) r.alternatives) p).blocks =
        p.blocks ++ rules.flatMap fun r => Alternative.blocksOfAll r.alternatives := by
    intro rules
    induction rules with
    | nil => simp
    | cons r rules ih =>
      intro p
      rw [List.foldl_cons, ih, Plan.blocks_alternatives, List.append_assoc]
      rfl
  exact all d.rules {}

end ParserGenerator

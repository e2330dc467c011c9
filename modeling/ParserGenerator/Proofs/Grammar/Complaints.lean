import ParserGenerator.Proofs.Collection.Attempt
import ParserGenerator.Proofs.Grammar.Lawful

/-!
# What is wrong with a grammar that cannot be closed

The checks before closing complain of one thing that is wrong with the grammar: it has no start symbol, or one
that is no nonterminal; a name of which nothing is known; or a nonterminal without productions. Whatever the
message shows can be looked up, so that no check fails in another way.
-/

namespace ParserGenerator.Grammar

open Attempt

variable {g : Grammar} {s : Symbol} {p : Production} {id n : Int} {name : String}

/-- What the checks before closing can complain of. Each complaint is justified. -/
inductive Complaint (g : Grammar) : Error → Prop
  | noProductions : g.start = none → Complaint g (.definition .noProductions)
  | unknownSymbol {id : Int} {s : Symbol} (place : Option String) : g.symbols.at? id = some s →
      s.kind = .unknown → Complaint g (.unknownSymbol s.name place)
  | withoutProduction {id : Int} {s : Symbol} : g.symbols.at? id = some s → s.kind = .nonterminal →
      s.productions = [] → Complaint g (.definition (.withoutProduction s.name))
  | startKind {name : String} : g.start = some name →
      (∀ s, g.symbols.get? name = some s → s.kind ≠ .nonterminal) →
      Complaint g (.definition (.startKind name))

/-- No complaint is about the numbers of the productions. -/
theorem Complaint.ne_numberGap {e : Error} (complaint : g.Complaint e) (missing : List Int) :
    e ≠ .definition (.numberGap missing) := by
  cases complaint <;> simp

theorem nameOf_eq_ok (at_s : g.symbols.at? id = some s) : g.symbols.nameOf id = .ok s.name := by
  rw [SymbolTable.nameOf, SymbolTable.symbol_eq_ok at_s]
  rfl

/-- A production of a lawful grammar can be shown. -/
theorem Lawful.exists_format (lawful : g.Lawful) (hp : g.byNumber.get? n = some p) (dot : Option Int) :
    ∃ text, g.format p dot = .ok text := by
  have names : ∀ id ∈ p.right, ∃ name, g.symbols.nameOf id = .ok name := by
    intro id mem
    obtain ⟨-, s, at_s⟩ := lawful.right hp id mem
    exact ⟨s.name, nameOf_eq_ok at_s⟩
  obtain ⟨shown, found⟩ := exists_mapM names
  obtain ⟨left, at_left, -⟩ := lawful.left hp
  exact ⟨_, bind_eq_ok.2 ⟨shown, found, bind_eq_ok.2 ⟨_, nameOf_eq_ok at_left, rfl⟩⟩⟩

theorem Lawful.answers_checkKnown (lawful : g.Lawful) (mem : p ∈ g.byNumber.values) :
    Answers (g.checkKnown p) (fun _ => True) g.Complaint := by
  obtain ⟨n, hp⟩ := OrderedMap.mem_values.1 mem
  unfold checkKnown
  apply answers_forM
  intro id inside
  obtain ⟨-, s, at_s⟩ := lawful.right hp id inside
  obtain ⟨text, shown⟩ := lawful.exists_format hp none
  have found : Answers (g.symbols.symbol id) (· = s) g.Complaint := by simp [SymbolTable.symbol_eq_ok at_s]
  refine answers_bind found ?_
  rintro _ rfl
  split
  · rename_i unknown
    have place : Answers (g.format p none) (· = text) g.Complaint := by simp [shown]
    refine answers_bind place ?_
    intro _ _
    exact .unknownSymbol _ at_s unknown
  · trivial

theorem answers_checkSymbol (mem : s ∈ g.symbols.symbols) :
    Answers (checkSymbol s) (fun _ => True) g.Complaint := by
  obtain ⟨id, at_s⟩ := SymbolTable.mem_symbols.1 mem
  unfold checkSymbol
  by_cases unknown : s.kind = .unknown
  · simpa [unknown] using Complaint.unknownSymbol none at_s unknown
  · by_cases without : s.kind = .nonterminal ∧ s.productions = [] ∧ s.name ≠ startMarkerName
    · simpa [without] using Complaint.withoutProduction at_s without.1 without.2.1
    · simp [unknown, without]

theorem answers_startSymbol (chosen : g.start = some name) :
    Answers (g.startSymbol name) (fun _ => True) g.Complaint := by
  unfold startSymbol
  cases found : g.symbols.get? name with
  | none => exact .startKind chosen (by simp [found])
  | some s =>
    by_cases nonterminal : s.kind = .nonterminal
    · simp [nonterminal]
    · simpa [nonterminal] using Complaint.startKind chosen (by simp [found, nonterminal])

end ParserGenerator.Grammar

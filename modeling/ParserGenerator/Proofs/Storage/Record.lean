import ParserGenerator.Proofs.Storage.Format

/-!
# Records are read back

Every symbol, label, production and report is read back as it was written, and so are the cells of an
action table that a parser knows.
-/

namespace ParserGenerator.Storage

open Format

theorem restores_precedence (p : String × Int) : precedence.Restores p :=
  fun g => takes_bind (restores_text p.1 g) (takes_map (restores_integer p.2 g))

theorem restores_optionalPrecedence :
    ∀ p : Option (String × Int), optionalPrecedence.Restores p
  | none, g => by
    have taken : Takes optionalPrecedence.read (integer.write 0 ++ []) g none g :=
      takes_bind (restores_integer 0 g) (takes_pure none g)
    rwa [List.append_nil] at taken
  | some p, g => takes_bind (restores_integer 1 g) (takes_map (restores_precedence p g))

theorem restores_symbolRecord (s : SymbolRecord) : symbolRecord.Restores s := by
  intro g
  simp only [symbolRecord, List.append_assoc]
  apply takes_bind (restores_text s.name g)
  apply takes_bind (restores_integer s.id g)
  apply takes_bind (restores_integer s.tag g)
  apply takes_bind (restores_text s.initialiser g)
  apply takes_bind (restores_optionalText s.actionText g)
  exact takes_map (restores_optionalPrecedence s.precedence g)

theorem restores_labelRecord (l : String × String × Int) : labelRecord.Restores l :=
  fun g => takes_bind (restores_text l.1 g) (takes_map (restores_precedence l.2 g))

theorem restores_integers (ns : List Int) : (many integer).Restores ns :=
  restores_many fun n _ => restores_integer n

theorem restores_production (p : Production) : production.Restores p := by
  intro g
  simp only [production, List.append_assoc]
  apply takes_bind (restores_integer p.number g)
  apply takes_bind (restores_integer p.left g)
  apply takes_bind (restores_integers p.right g)
  apply takes_bind (restores_optionalText p.action g)
  exact takes_map (restores_optionalText p.label g)

/-- A cell is read back if its kind is the one that its name stands for. -/
theorem restores_actionCell {c : (Int × Int) × Action} (known : ActionKind.ofName c.2.kind.name = c.2.kind) :
    actionCell.Restores c := by
  intro g
  simp only [actionCell, List.append_assoc]
  apply takes_bind (restores_integer c.1.1 g)
  apply takes_bind (restores_integer c.1.2 g)
  apply takes_bind (restores_text c.2.kind.name g)
  rw [known]
  exact takes_map (restores_integer c.2.argument g)

theorem restores_gotoCell (c : (Int × Int) × Int) : gotoCell.Restores c := by
  intro g
  simp only [gotoCell, List.append_assoc]
  apply takes_bind (restores_integer c.1.1 g)
  apply takes_bind (restores_integer c.1.2 g)
  exact takes_map (restores_integer c.2 g)

theorem restores_conflict (c : Conflict) : conflict.Restores c := by
  intro g
  simp only [conflict, List.append_assoc]
  apply takes_bind (restores_text c.kind g)
  apply takes_bind (restores_integer c.state g)
  apply takes_bind (restores_integer c.terminal g)
  apply takes_bind (restores_integers c.productions g)
  apply takes_bind (restores_text c.resolution g)
  apply takes_bind (restores_text c.resolvedBy g)
  exact takes_map (restores_text c.message g)

theorem restores_violation (v : Violation) : violation.Restores v := by
  intro g
  simp only [violation, List.append_assoc]
  apply takes_bind (restores_integer v.state g)
  apply takes_bind (restores_integer v.terminal g)
  exact takes_map (restores_integer v.production g)

end ParserGenerator.Storage

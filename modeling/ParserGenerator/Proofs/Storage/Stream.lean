import ParserGenerator.Proofs.LR.Soundness
import ParserGenerator.Proofs.Storage.Record
import ParserGenerator.Proofs.Storage.Restore

/-!
# Tables are read back

The stream of a grammar that can be stored and its tables is decoded to the same tables and to a grammar that
is made from the same parts: it has the same stream. A settled grammar is made again with the same symbols,
labels and productions.
-/

namespace ParserGenerator.Storage

open Build Format Grammar

variable {g g' k : Grammar} {t : Tables} {states : Array State} {marker start : Int} {name : String}
  {f : Facts}

/-- Every cell of the action table has a kind that its name stands for. -/
def Readable (t : Tables) : Prop := ∀ c ∈ t.action.toList, ActionKind.ofName c.2.kind.name = c.2.kind

/-- The tables have the left-hand sides of the listed productions and the lengths of their reductions. -/
structure Completed (g : Grammar) (t : Tables) : Prop where
  lefts : t.leftIds = g.productions.toList.map Production.left
  lengths : ∃ ns, g.productions.toList.mapM g.reduceLength = .ok ns ∧ t.rightLengths = ns.map Int.ofNat

/-- The tables of a grammar have only cells that a parser knows. -/
theorem readable_of_tabled (tabled : g.Tabled states t) : Readable t := by
  intro ⟨k, a⟩ mem
  obtain ⟨q, -, -, permits⟩ := tabled.permits (OrderedMap.mem_toList.1 mem)
  cases permits <;> simp [ActionKind.ofName, ActionKind.name]

theorem completed_of_tabled (tabled : (g.having f).Tabled states t) : Completed g t :=
  ⟨tabled.lefts, tabled.lengths⟩

theorem checkVersion_takes (g : Grammar) : Takes checkVersion (text.write version) g () g := by
  have taken : Takes checkVersion (text.write version ++ []) g () g :=
    takes_bind (restores_text version g) (by
      rw [if_neg (not_not.2 rfl)]
      exact takes_pure () g)
  rwa [List.append_nil] at taken

theorem complete_eq {h h' : Grammar} (closed : close (some name) h = .ok () h') (completed : Completed h' t) :
    complete name { t with leftIds := [], rightLengths := [] } h = .ok t h' := by
  obtain ⟨ns, lengths, same⟩ := completed.lengths
  rw [complete, bind_of_ok closed]
  refine bind_eq_ok.2 ⟨h', h', rfl, bind_eq_ok.2 ⟨ns, h', query_of_ok lengths, ?_⟩⟩
  rw [← completed.lefts, ← same]
  rfl

/-! ## Grammars of the same parts -/

theorem Remade.productions_eq (remade : Remade g g') : g'.productions = g.productions := by
  obtain ⟨u, m, n, -, rfl⟩ := remade
  rfl

/-- How long a reduction is depends on the kinds of symbols. -/
theorem Remade.reduceLength_eq (remade : Remade g g') {p : Production} {n : Nat}
    (length : g.reduceLength p = .ok n) : g'.reduceLength p = .ok n := by
  obtain ⟨u, m, k, refiled, rfl⟩ := remade
  obtain ⟨xs, found, eq⟩ := Attempt.bind_eq_ok.1 length
  cases eq
  have counted : ∀ {ids : List Int} {xs : List Symbol}, ids.mapM g.symbols.symbol = .ok xs →
      ∃ ys, ids.mapM u.freeze.symbol = .ok ys ∧ ys.map Symbol.isAction = xs.map Symbol.isAction := by
    intro ids xs found
    rw [Attempt.mapM_eq_ok] at found
    induction found with
    | nil => exact ⟨[], rfl, rfl⟩
    | @cons id x ids xs first _ ih =>
      obtain ⟨y, at_y, same⟩ := refiled.exists_symbol (SymbolTable.at?_of_symbol first)
      obtain ⟨ys, rest, actions⟩ := ih
      have first' : u.freeze.symbol id = .ok y := SymbolTable.symbol_eq_ok at_y
      have action : y.isAction = x.isAction := congrArg SymbolKind.isAction (Symbol.kind_eq_of_bare same)
      refine ⟨y :: ys, ?_, ?_⟩
      · rw [List.mapM_cons, first', rest]
        rfl
      · rw [List.map_cons, List.map_cons, action, actions]
  obtain ⟨ys, found', actions⟩ := counted found
  refine Attempt.bind_eq_ok.2 ⟨ys, found', ?_⟩
  have lengths : ∀ zs : List Symbol, (zs.filter fun s => !s.isAction).length =
      ((zs.map Symbol.isAction).filter fun b => !b).length := by
    intro zs
    rw [List.filter_map, List.length_map]
    rfl
  rw [lengths, lengths xs, actions]
  rfl

theorem Remade.completed (remade : Remade g g') (completed : Completed g t) : Completed g' t := by
  obtain ⟨ns, lengths, same⟩ := completed.lengths
  have lengths' : g.productions.toList.mapM g'.reduceLength = .ok ns := by
    rw [Attempt.mapM_eq_ok] at lengths ⊢
    exact lengths.imp fun _ _ length => remade.reduceLength_eq length
  exact ⟨remade.productions_eq ▸ completed.lefts, ns, remade.productions_eq.symm ▸ lengths', same⟩

/-- A grammar that is made of the parts of another one has the same stream. -/
theorem Remade.encode_eq (remade : Remade g g') (gathered : g.Gathered) : encode g' t = encode g t := by
  have sorted := remade.sortedProductions_eq gathered
  have symbols : g'.symbols.symbols.map SymbolRecord.ofSymbol = g.symbols.symbols.map SymbolRecord.ofSymbol := by
    obtain ⟨u, m, n, refiled, rfl⟩ := remade
    have records : ∀ o : Option Symbol, o.map SymbolRecord.ofSymbol =
        (o.map Symbol.bare).map SymbolRecord.ofSymbol := by
      intro o
      cases o <;> rfl
    have stored : ∀ {v : SymbolTable} {n : Nat}, v.slots.size ≤ n → v.symbols.map SymbolRecord.ofSymbol =
        (List.range n).filterMap fun i : Nat => ((v.at? i).map Symbol.bare).map SymbolRecord.ofSymbol := by
      intro v n size
      rw [SymbolTable.symbols_eq_range v size, List.map_filterMap]
      exact congrArg (List.filterMap · (List.range n)) (funext fun i => records _)
    have frozen : (Grammar.sealed { Grammar.fresh with
        symbols := u, start := g.start, labels := g.labels, byNumber := m, nextNumber := n }
          g.productions).symbols.symbols = u.symbols := rfl
    rw [frozen, stored refiled.size, stored (Nat.le_refl g.symbols.slots.size)]
    exact congrArg (List.filterMap · (List.range g.symbols.slots.size))
      (funext fun i => congrArg (Option.map SymbolRecord.ofSymbol) (refiled.bare i))
  obtain ⟨u, m, n, -, rfl⟩ := remade
  rw [encode, encode, symbols, sorted]
  rfl

/-! ## Streams -/

/-- The stream of a grammar that can be stored and its tables is read to its end. -/
theorem finishes_readTables (storable : g.Storable name) (readable : Readable t) (completed : Completed g t) :
    ∃ h, Finishes readTables (encode g t) .fresh t h ∧ Remade g h := by
  obtain ⟨g₁, g₂, g₃, h, symbols, labels, productions, closed, remade⟩ := exists_remade storable
  refine ⟨h, ?_, remade⟩
  rw [readTables, encode, storable.chosen, ← List.append_nil ((many (many text)).write t.stateItems)]
  simp only [List.append_assoc]
  apply finishes_bind (checkVersion_takes .fresh)
  apply finishes_bind (restores_text t.method .fresh)
  apply finishes_bind (restores_text name .fresh)
  apply finishes_bind (takes_restoreMany (fun s _ => restores_symbolRecord s) symbols)
  apply finishes_bind (takes_restoreMany (fun l _ => restores_labelRecord l) labels)
  apply finishes_bind (takes_restoreMany (fun p _ => restores_production p) productions)
  apply finishes_bind (restores_integer t.startState g₃)
  apply finishes_bind (restores_integer t.stateCount g₃)
  apply finishes_bind (restores_many (fun c mem => restores_actionCell (readable c mem)) g₃)
  apply finishes_bind (restores_many (fun c _ => restores_gotoCell c) g₃)
  apply finishes_bind (restores_many (fun c _ => restores_conflict c) g₃)
  apply finishes_bind (restores_many (fun v _ => restores_violation v) g₃)
  apply finishes_bind
    (restores_many (fun items _ => restores_many fun item _ => restores_text item) g₃)
  apply finishes_atEnd
  rw [OrderedMap.ofList_toList, OrderedMap.ofList_toList]
  exact complete_eq closed (remade.completed completed)

/-- What can be stored is decoded to the same tables and a grammar of the same parts. -/
theorem exists_decode_remade (storable : g.Storable name) (readable : Readable t) (completed : Completed g t) :
    ∃ h, decode (encode g t) = .ok (h, t) ∧ Remade g h := by
  obtain ⟨h, finishes, remade⟩ := finishes_readTables storable readable completed
  obtain ⟨r, ended, rfl⟩ := finishes 0
  refine ⟨r.grammar, ?_, remade⟩
  rw [decode, ended]

/-- What is encoded is decoded to the same tables and an alike grammar. -/
theorem exists_decode (settled : g.Settled marker start) (untouched : g.facts = {})
    (labelled : g.Labelled) (tabled : (g.having f).Tabled states t) :
    ∃ h, decode (encode (g.having f) t) = .ok (h, t) ∧ g.Alike h := by
  obtain ⟨-, name, -, chosen, -⟩ := settled.start_name
  have storable := settled.storable labelled chosen
  have same : encode (g.having f) t = encode g t := rfl
  obtain ⟨h, decoded, remade⟩ :=
    exists_decode_remade storable (readable_of_tabled tabled) (completed_of_tabled tabled)
  exact ⟨h, same ▸ decoded, remade.alike settled untouched storable⟩

end ParserGenerator.Storage

import ParserGenerator.Proofs.Analysis.Repetition

/-!
# Derivations past barred nonterminals

A derivation that leaves barred nonterminals alone comes to the empty word exactly if all symbols vanish past
the barred ones. Barring more nonterminals that do not vanish anyway takes nothing away. If every symbol can be
read and the start marker and the start symbol are registered, an analysis succeeds, and its answers are right
past those nonterminals that were barred before it.
-/

namespace ParserGenerator.Grammar

open Build

variable {g g' : Grammar} {barred barred' : Int → Prop} {answers : IdMap Bool} {α β γ δ : List Int} {id : Int}

/-- Replaces a nonterminal that is not barred by the right-hand side of one of its productions. -/
inductive RewritesPast (g : Grammar) (barred : Int → Prop) : List Int → List Int → Prop
  | rule {n : Int} {p : Production} (α β : List Int) : g.byNumber.get? n = some p →
      g.isNonterminal p.left = true → ¬ barred p.left →
      RewritesPast g barred (α ++ p.left :: β) (α ++ (g.erased p.right ++ β))

def DerivesPast (g : Grammar) (barred : Int → Prop) : List Int → List Int → Prop :=
  Relation.ReflTransGen (g.RewritesPast barred)

/-- Where no nonterminal is barred, the derivations of a lawful grammar are the usual ones. -/
theorem Lawful.derivesPast_iff (sound : g.Lawful) : g.DerivesPast (fun _ => False) α β ↔ g.Derives α β := by
  have rewrites : ∀ α β, g.RewritesPast (fun _ => False) α β ↔ g.Rewrites α β := by
    refine fun _ _ => ⟨?_, ?_⟩
    · rintro ⟨α, β, hp, -, -⟩
      exact .rule α β hp
    · rintro ⟨α, β, hp⟩
      exact .rule α β hp (sound.isNonterminal_left hp) not_false
  exact ⟨Relation.ReflTransGen.mono (fun α β => (rewrites α β).1) _ _,
    Relation.ReflTransGen.mono (fun α β => (rewrites α β).2) _ _⟩

theorem RewritesPast.context (h : g.RewritesPast barred α β) (γ δ : List Int) :
    g.RewritesPast barred (γ ++ α ++ δ) (γ ++ β ++ δ) := by
  obtain ⟨α, β, hp, nonterminal, free⟩ := h
  have := RewritesPast.rule (γ ++ α) (β ++ δ) hp nonterminal free
  simpa only [List.append_assoc, List.cons_append] using this

theorem DerivesPast.context (h : g.DerivesPast barred α β) (γ δ : List Int) :
    g.DerivesPast barred (γ ++ α ++ δ) (γ ++ β ++ δ) := by
  induction h with
  | refl => exact .refl
  | tail _ step ih => exact ih.tail (step.context γ δ)

theorem vanishesPast_of_derivesPast (h : g.DerivesPast barred α []) : ∀ id ∈ α, g.VanishesPast barred id := by
  induction h using Relation.ReflTransGen.head_induction_on with
  | refl => exact fun id mem => absurd mem List.not_mem_nil
  | head step _ ih =>
    obtain ⟨α, β, hp, nonterminal, free⟩ := step
    rename_i n p _
    intro id mem
    rw [List.mem_append, List.mem_cons] at mem
    rcases mem with before | rfl | behind
    · exact ih id (List.mem_append_left _ before)
    · refine .rule hp nonterminal free fun id mem => ?_
      by_cases action : g.isAction id = true
      · exact .action action
      · have kept : id ∈ g.erased p.right := List.mem_filter.2 ⟨mem, by simpa using action⟩
        exact ih id (List.mem_append_right _ (List.mem_append_left _ kept))
    · exact ih id (List.mem_append_right _ (List.mem_append_right _ behind))

theorem VanishesPast.derivesPast (h : g.VanishesPast barred id) : g.DerivesPast barred (g.erased [id]) [] := by
  induction h with
  | action action =>
    rw [erased_cons_of_action action]
    exact .refl
  | rule hp nonterminal free _ ih =>
    rename_i n p _
    -- The symbols of the right-hand side go one after the other.
    have right : ∀ γ, (∀ id ∈ γ, id ∈ p.right) → g.DerivesPast barred (g.erased γ) [] := by
      intro γ
      induction γ with
      | nil => exact fun _ => .refl
      | cons id γ ihγ =>
        intro among
        obtain ⟨head, tail⟩ := List.forall_mem_cons.1 among
        have first := (ih id head).context [] (g.erased γ)
        rw [List.nil_append, List.nil_append, List.nil_append, ← erased_append] at first
        exact first.trans (ihγ tail)
    have step := RewritesPast.rule [] [] hp nonterminal free
    rw [erased_cons (isAction_of_isNonterminal nonterminal)]
    refine .head step ?_
    rw [List.append_nil]
    exact right p.right fun _ mem => mem

theorem derivesPast_nil_iff (nonterminal : g.isNonterminal id = true) :
    g.DerivesPast barred [id] [] ↔ g.VanishesPast barred id := by
  have kept : g.erased [id] = [id] := erased_cons (isAction_of_isNonterminal nonterminal) []
  exact ⟨fun h => vanishesPast_of_derivesPast h id List.mem_cons_self, fun h => kept ▸ h.derivesPast⟩

/-! ## Other barred symbols -/

/-- What vanishes needs no symbol that does not. -/
theorem VanishesPast.past (h : g.VanishesPast barred id)
    (unneeded : ∀ x, barred' x → barred x ∨ ¬ g.VanishesPast barred x) : g.VanishesPast barred' id := by
  induction h with
  | action action => exact .action action
  | rule hp nonterminal free right ih =>
    refine .rule hp nonterminal (fun refused => ?_) ih
    rcases unneeded _ refused with before | stays
    · exact free before
    · exact stays (.rule hp nonterminal free right)

/-- Barred nonterminals change nothing exactly if none of them would vanish. -/
theorem vanishesPast_iff_of_stays (nonterminals : ∀ {x}, barred x → g.isNonterminal x = true) :
    (∀ id, g.isNonterminal id = true →
        (g.VanishesPast barred id ↔ g.VanishesPast (fun _ => False) id)) ↔
      ∀ x, barred x → ¬ g.VanishesPast (fun _ => False) x := by
  constructor
  · intro same x refused vanishes
    have nonterminal := nonterminals refused
    exact ((same x nonterminal).2 vanishes).not_barred (isAction_of_isNonterminal nonterminal) refused
  · intro stay id _
    exact ⟨fun h => h.past fun _ => False.elim, fun h => h.past fun x refused => .inr (stay x refused)⟩

/-- The second grammar has the symbols and productions of the first, and maybe more. -/
structure Broader (g g' : Grammar) : Prop where
  input : ∀ {id}, g.isInput id = true → g'.isInput id = true
  action : ∀ {id}, g.isAction id = true → g'.isAction id = true
  nonterminal : ∀ {id}, g.isNonterminal id = true → g'.isNonterminal id = true
  byNumber : ∀ {n p}, g.byNumber.get? n = some p → g'.byNumber.get? n = some p

/-- Symbols are there in a broader grammar, with the kinds that they had if those were known. -/
theorem broader_of_old (old : ∀ {id s}, g.symbols.at? id = some s → s.kind ≠ .unknown →
      ∃ s', g'.symbols.at? id = some s' ∧ s'.kind = s.kind)
    (byNumber : ∀ {n p}, g.byNumber.get? n = some p → g'.byNumber.get? n = some p) : g.Broader g' := by
  have kept : ∀ look : SymbolKind → Bool, look .unknown = false → ∀ {id : Int},
      (g.symbols.at? id).any (look ·.kind) = true → (g'.symbols.at? id).any (look ·.kind) = true := by
    intro look open_kind id seen
    rw [Option.any_eq_true] at seen ⊢
    obtain ⟨s, at_s, seen⟩ := seen
    obtain ⟨s', at_s', same⟩ := old at_s fun unknown => by rw [unknown, open_kind] at seen; cases seen
    exact ⟨s', at_s', same ▸ seen⟩
  exact {
    input := kept SymbolKind.isInput rfl
    action := kept SymbolKind.isAction rfl
    nonterminal := kept (fun kind => Decidable.decide (kind = .nonterminal)) rfl
    byNumber := byNumber }

namespace Broader

theorem trans {g'' : Grammar} (h : g.Broader g') (h' : g'.Broader g'') : g.Broader g'' :=
  ⟨fun i => h'.input (h.input i), fun i => h'.action (h.action i), fun i => h'.nonterminal (h.nonterminal i),
    fun hp => h'.byNumber (h.byNumber hp)⟩

theorem vanishesPast (h : g.Broader g') (vanishes : g.VanishesPast barred id) : g'.VanishesPast barred id := by
  induction vanishes with
  | action action => exact .action (h.action action)
  | rule hp nonterminal free _ ih => exact .rule (h.byNumber hp) (h.nonterminal nonterminal) free ih

theorem told (h : g.Broader g') (nonterminals : ∀ {id}, barred id → g.isNonterminal id = true)
    (told : g.Told barred answers) : g'.Told barred answers where
  granted given := h.vanishesPast (told.granted given)
  denied given := (told.denied given).imp_right h.input
  refused refused :=
    ⟨(told.refused refused).1, isAction_of_isNonterminal (h.nonterminal (nonterminals refused))⟩

end Broader

/-- Once all symbols are resolved, every nonterminal that does not vanish is as good as barred. -/
theorem Resolved.told (resolved : g.Resolved barred answers)
    (nonterminals : ∀ {id}, barred id → g.isNonterminal id = true) :
    g.Told (fun x => barred x ∨ g.isNonterminal x = true ∧ ¬ g.VanishesPast barred x) answers := by
  have unneeded : ∀ x, barred x ∨ g.isNonterminal x = true ∧ ¬ g.VanishesPast barred x →
      barred x ∨ ¬ g.VanishesPast barred x := fun x refused => refused.imp_right And.right
  exact {
    granted := fun given => ((resolved.truthful given).1 rfl).past unneeded
    denied := by
      intro id given
      have stays : ¬ g.VanishesPast barred id := fun vanishes => by
        cases (resolved.truthful given).2 vanishes
      rcases resolved.asked given with refused | ⟨s, at_s⟩
      · exact .inl (.inl refused)
      · rcases (resolved.kinds at_s).cases_kind at_s with input | action | nonterminal
        · exact .inr (isInput_iff.2 ⟨s, at_s, input⟩)
        · exact absurd (.action (isAction_iff.2 ⟨s, at_s, action⟩)) stays
        · exact .inl (.inr ⟨nonterminal, stays⟩)
    refused := by
      intro id refused
      have nonterminal : g.isNonterminal id = true := refused.elim nonterminals And.left
      have plain := isAction_of_isNonterminal nonterminal
      have stays : ¬ g.VanishesPast barred id := by
        rcases refused with before | ⟨-, stays⟩
        · exact fun vanishes => vanishes.not_barred plain before
        · exact stays
      obtain ⟨s, at_s, -⟩ := isNonterminal_iff.1 nonterminal
      obtain ⟨b, given⟩ := resolved.total at_s
      cases b with
      | true => exact absurd ((resolved.truthful given).1 rfl) stays
      | false => exact ⟨given, plain⟩ }

/-! ## The analysis -/

/-- The stages for FIRST and FOLLOW leave the answers alone. -/
theorem nullable_firstPass (ps : List Production) (f : Facts) : (firstPass ps f).1.nullable = f.nullable :=
  List.foldlRecOn (motive := fun f' : Facts => f'.nullable = f.nullable) ps widenFirst rfl fun _ h _ _ => h

theorem nullable_seedFirst (ss : List Symbol) (f : Facts) : (ss.foldl seedFirst f).nullable = f.nullable := by
  refine List.foldlRecOn (motive := fun f' : Facts => f'.nullable = f.nullable) ss seedFirst rfl fun f' h s _ => ?_
  rw [seedFirst]
  split <;> exact h

theorem nullable_widenFollow (isNonterminal : Int → Bool) (left : Int) (ids : List Int) (f : Facts) :
    (widenFollow isNonterminal left f ids).nullable = f.nullable := by
  induction ids generalizing f with
  | nil => rfl
  | cons id ids ih =>
    rw [widenFollow_cons, ih]
    exact (frame_occur isNonterminal left f id ids).1

theorem nullable_followPass (ps : List Production) (f : Facts) : (g.followPass ps f).1.nullable = f.nullable :=
  List.foldlRecOn (motive := fun f' : Facts => f'.nullable = f.nullable) ps _ rfl
    fun _ h p _ => (nullable_widenFollow g.isNonterminal p.left p.right _).trans h

theorem ends_computeFirst (f : Facts)
    (left : ∀ {n p}, g.byNumber.get? n = some p → ∃ s, g.symbols.at? p.left = some s) :
    Ends computeFirst (g.having f) (fun _ g' => ∃ f', g' = g.having f' ∧ f'.nullable = f.nullable)
      (fun _ => False) := by
  have sound : (g.having f).sortedProductions.takeWhile (fun p => ((g.having f).symbols.at? p.left).isSome) =
      g.sortedProductions := by
    refine List.takeWhile_eq_self_iff.2 fun p mem => ?_
    obtain ⟨n, hp⟩ := mem_sortedProductions.1 mem
    exact Option.isSome_iff_exists.2 (left hp)
  have rest : (g.having f).sortedProductions.drop g.sortedProductions.length = [] := List.drop_length
  rw [computeFirst]
  apply ends_get_bind
  dsimp only
  rw [sound, rest]
  refine ends_modify ⟨_, rfl, ?_⟩
  exact iterate_keeps (I := fun f' : Facts => f'.nullable = f.nullable)
    (fun f' h => (nullable_firstPass _ f').trans h) (nullable_seedFirst _ _)

/-- An identifier that is found belongs to a symbol. -/
def Finds (g : Grammar) (found : Except Error Int) : Prop := ∃ id s, found = .ok id ∧ g.symbols.at? id = some s

theorem ends_computeFollow (f : Facts) (marker : g.Finds g.idOfStartMarker) (start : g.Finds g.idOfStart) :
    Ends computeFollow (g.having f) (fun _ g' => ∃ f', g' = g.having f' ∧ f'.nullable = f.nullable)
      (fun _ => False) := by
  obtain ⟨m, x, marker, at_x⟩ := marker
  obtain ⟨s, y, start, at_y⟩ := start
  have idOfStartMarker : (g.having f).idOfStartMarker = .ok m := marker
  have idOfStart : ∀ f, (g.having f).idOfStart = .ok s := fun _ => start
  have kept : (iterate (fun state => openPairs g.ids state.1.followOf) g.followStep (ended f m s, [])).1.nullable =
      f.nullable :=
    iterate_keeps (I := fun state : Facts × List (List (Int × Nat)) => state.1.nullable = f.nullable)
      (fun state h => (nullable_followPass g.sortedProductions state.1).trans h) (frame_ended f).1
  rw [computeFollow]
  apply ends_bind_of_ok (query_of_ok idOfStartMarker)
  apply ends_bind_of_ok (seedFollow_eq at_x)
  apply ends_bind_of_ok (query_of_ok (idOfStart _))
  apply ends_bind_of_ok (seedFollow_eq at_y)
  apply ends_get_bind
  show Ends ((fun r : Facts × List (List (Int × Nat)) =>
      (do setFacts r.1; return r.2 : Build (List (List (Int × Nat)))))
    (iterate (fun state => openPairs g.ids state.1.followOf) g.followStep (ended f m s, []))) _ _ _
  exact ends_modify_bind (ends_pure ⟨_, rfl, kept⟩)

/-- A closed grammar that can be analysed. -/
structure Analysable (g : Grammar) : Prop extends Readable g where
  table : g.symbols.Lawful
  closed : g.closed = true
  marker : g.Finds g.idOfStartMarker
  start : g.Finds g.idOfStart

/-- The analysis succeeds. What it says of a nonterminal is right past those that were barred. -/
theorem Analysable.ends_analyze (analysable : g.Analysable) (told : g.Told barred g.facts.nullable) :
    Ends analyze g (fun _ g' => ∀ {id}, g.isNonterminal id = true →
      (g'.facts.isNullable id = true ↔ g.VanishesPast barred id)) (fun _ => False) := by
  have closed : (!g.closed) = false := by rw [analysable.closed]; rfl
  rw [analyze]
  apply ends_get_bind
  rw [if_neg (by rw [closed]; exact Bool.false_ne_true)]
  have settled : Ends settleNullable g (fun _ g' => ∃ answers, g' = g.knowing answers ∧ g.Resolved barred answers)
      (fun _ => False) :=
    (ends_settleNullable analysable.table told).mono (fun _ _ h => h) fun _ h => h.1 analysable.toReadable
  apply ends_bind settled
  rintro - _ ⟨answers, rfl, resolved⟩
  apply ends_bind (ends_computeFirst { g.facts with nullable := answers } analysable.left)
  rintro - _ ⟨f, rfl, kept⟩
  refine (ends_computeFollow f analysable.marker analysable.start).mono ?_ fun _ h => h
  rintro passes _ ⟨f', rfl, kept'⟩ id nonterminal
  have same : f'.nullable = answers := kept'.trans kept
  obtain ⟨s, at_s, -⟩ := isNonterminal_iff.1 nonterminal
  obtain ⟨b, given⟩ := resolved.total at_s
  rw [isNullable_iff]
  show f'.nullable.get? id = some true ↔ _
  rw [same, given, Option.some_inj]
  exact resolved.truthful given

end ParserGenerator.Grammar

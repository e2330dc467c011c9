import ParserGenerator.Proofs.Storage.File

/-!
# Streams that are cut or go on

What a reader takes of a stream is settled by the items it takes: it takes the same whatever stands behind
them, and where the stream ends among them it finds it truncated. So of the streams that are decoded none
goes on another.
-/

namespace ParserGenerator.Storage

open Json (Value)
open Build Format

variable {α β : Type} {x : Reader α} {f : α → Reader β} {xs ys : List Value} {a : α} {b : β}
  {g g' g'' : Grammar}

/-- From the first grammar the reader takes just these items and gives the value, with the second grammar;
of a stream that ends before the last of them it says where it ends. -/
structure Consumes (x : Reader α) (xs : List Value) (g : Grammar) (a : α) (g' : Grammar) : Prop where
  takes : Takes x xs g a g'
  cut : ∀ position front, front <+: xs → front ≠ xs →
    ∃ r, x ⟨position, front, g⟩ = .error (.stream (.truncated (position + front.length))) r

theorem consumes_nothing (taken : Takes x [] g a g') : Consumes x [] g a g' where
  takes := taken
  cut := fun _ _ within less => absurd (List.prefix_nil.1 within) less

theorem consumes_bind (first : Consumes x xs g a g') (second : Consumes (f a) ys g' b g'') :
    Consumes (x >>= f) (xs ++ ys) g b g'' where
  takes := takes_bind first.takes second.takes
  cut := by
    intro position front within less
    obtain ⟨behind, eq⟩ := within
    rcases List.append_eq_append_iff.1 eq with ⟨rest, inside, -⟩ | ⟨more, rfl, inside⟩
    · by_cases whole : front = xs
      · subst whole
        have less : [] ≠ ys := by
          rintro rfl
          exact less (List.append_nil _).symm
        obtain ⟨r, stopped⟩ := second.cut (position + front.length) [] List.nil_prefix less
        have taken := first.takes position []
        rw [List.append_nil] at taken
        rw [List.length_nil, Nat.add_zero] at stopped
        refine ⟨r, ?_⟩
        rw [bind_of_ok taken, stopped]
      · obtain ⟨r, stopped⟩ := first.cut position front ⟨rest, inside.symm⟩ whole
        exact ⟨r, bind_of_error stopped⟩
    · have less : more ≠ ys := fun eq => less (congrArg (xs ++ ·) eq)
      obtain ⟨r, stopped⟩ := second.cut (position + xs.length) more ⟨behind, inside.symm⟩ less
      refine ⟨r, ?_⟩
      rw [bind_of_ok (first.takes position more), stopped, List.length_append, Nat.add_assoc]

/-- Whenever the reader gives a value, it has consumed the items that are gone. -/
def Frugal (x : Reader α) : Prop :=
  ∀ ⦃r a r'⦄, x r = .ok a r' → ∃ xs, r.rest = xs ++ r'.rest ∧ Consumes x xs r.grammar a r'.grammar

theorem frugal_pure (a : α) : Frugal (pure a : Reader α) := by
  intro r a' r' done
  cases done
  exact ⟨[], rfl, consumes_nothing (takes_pure a r.grammar)⟩

theorem frugal_bind (first : Frugal x) (second : ∀ a, Frugal (f a)) : Frugal (x >>= f) := by
  intro r b r' done
  obtain ⟨a, r₁, done₁, done₂⟩ := bind_eq_ok.1 done
  obtain ⟨xs, rest, consumed⟩ := first done₁
  obtain ⟨ys, rest', consumed'⟩ := second a done₂
  refine ⟨xs ++ ys, ?_, consumes_bind consumed consumed'⟩
  rw [rest, rest', List.append_assoc]

theorem frugal_onGrammar (step : Build α) : Frugal (Reader.onGrammar step) := by
  intro r a r' done
  rw [Reader.onGrammar] at done
  split at done
  · rename_i a' g' made
    cases done
    exact ⟨[], rfl, consumes_nothing (takes_onGrammar made)⟩
  · cases done

theorem frugal_times (each : Frugal x) : ∀ n, Frugal (Reader.times n x)
  | 0 => frugal_pure []
  | n + 1 => frugal_bind each fun _ => frugal_bind (frugal_times each n) fun _ => frugal_pure _

/-! ## Records -/

/-- The reader consumes items and leaves the grammar alone, whichever it is, or it finds fault with the
stream. -/
def Careful (x : Reader α) : Prop := ∀ r, Runs x r
  (fun a r' => r'.grammar = r.grammar ∧ ∃ xs, r.rest = xs ++ r'.rest ∧ ∀ g, Consumes x xs g a g)
  fun e => ∃ fault, e = .stream fault

theorem Careful.frugal (careful : Careful x) : Frugal x := by
  intro r a r' done
  obtain ⟨same, xs, rest, consumed⟩ := (careful r).of_ok done
  exact ⟨xs, rest, same ▸ consumed r.grammar⟩

/-- Of the grammar that it carries the reader makes nothing. -/
theorem Careful.at_grammar (careful : Careful x) {r r' : Reading} (read : x r = .ok a r') (g : Grammar) :
    x { r with grammar := g } = .ok a { r' with grammar := g } := by
  obtain ⟨same, xs, rest, consumed⟩ := (careful r).of_ok read
  have here := (consumed r.grammar).takes r.position r'.rest
  have there := (consumed g).takes r.position r'.rest
  rw [← rest] at here there
  have position : r'.position = r.position + xs.length := by
    rw [read] at here
    injection here with _ after
    rw [after]
  rw [there, position]

theorem careful_pure (a : α) : Careful (pure a : Reader α) :=
  fun _ => ⟨rfl, [], rfl, fun g => consumes_nothing (takes_pure a g)⟩

theorem careful_throw (fault : StreamError) : Careful (throw (.stream fault) : Reader α) :=
  fun _ => ⟨fault, rfl⟩

theorem careful_bind (first : Careful x) (second : ∀ a, Careful (f a)) : Careful (x >>= f) := by
  intro r
  apply runs_bind (first r)
  rintro a r₁ - ⟨same, xs, rest, consumed⟩
  refine (second a r₁).mono ?_ fun _ fault => fault
  rintro b r₂ ⟨same', ys, rest', consumed'⟩
  refine ⟨same'.trans same, xs ++ ys, ?_, fun g => consumes_bind (consumed g) (consumed' g)⟩
  rw [rest, rest', List.append_assoc]

theorem careful_item (wanted : Json.Kind) (accept? : Value → Option α) :
    Careful (Reader.item wanted accept?) := by
  intro r
  cases there : r.rest with
  | nil =>
    rw [Runs, Reader.item, there]
    exact ⟨_, rfl⟩
  | cons v rest =>
    cases accepted : accept? v with
    | none =>
      simp only [Runs, Reader.item, there, accepted]
      exact ⟨_, rfl⟩
    | some a =>
      simp only [Runs, Reader.item, there, accepted, true_and]
      refine ⟨[v], rfl, fun g => ⟨takes_item accepted g, fun position front within less => ?_⟩⟩
      obtain rfl : front = [] := by
        rcases List.prefix_cons_iff.1 within with none | ⟨more, rfl, inside⟩
        · exact none
        · exact absurd (congrArg (v :: ·) (List.prefix_nil.1 inside)) less
      exact ⟨_, rfl⟩

theorem careful_times (each : Careful x) : ∀ n, Careful (Reader.times n x)
  | 0 => careful_pure []
  | n + 1 => careful_bind each fun _ => careful_bind (careful_times each n) fun _ => careful_pure _

theorem careful_text : Careful text.read := careful_item _ _

theorem careful_integer : Careful integer.read := careful_item _ _

theorem careful_optionalText : Careful optionalText.read := careful_item _ _

theorem careful_count : Careful count.read := by
  refine careful_bind careful_integer fun n => ?_
  split
  · exact careful_throw _
  · exact careful_pure _

theorem careful_many {f : Format α} (each : Careful f.read) : Careful (many f).read :=
  careful_bind careful_count fun n => careful_times each n

theorem careful_precedence : Careful precedence.read :=
  careful_bind careful_text fun _ => careful_bind careful_integer fun _ => careful_pure _

theorem careful_optionalPrecedence : Careful optionalPrecedence.read := by
  refine careful_bind careful_integer fun present => ?_
  split
  · exact careful_pure _
  · exact careful_bind careful_precedence fun _ => careful_pure _

theorem careful_symbolRecord : Careful symbolRecord.read :=
  careful_bind careful_text fun _ => careful_bind careful_integer fun _ => careful_bind careful_integer
    fun _ => careful_bind careful_text fun _ => careful_bind careful_optionalText fun _ =>
      careful_bind careful_optionalPrecedence fun _ => careful_pure _

theorem careful_labelRecord : Careful labelRecord.read :=
  careful_bind careful_text fun _ => careful_bind careful_precedence fun _ => careful_pure _

theorem careful_production : Careful production.read :=
  careful_bind careful_integer fun _ => careful_bind careful_integer fun _ =>
    careful_bind (careful_many careful_integer) fun _ => careful_bind careful_optionalText fun _ =>
      careful_bind careful_optionalText fun _ => careful_pure _

theorem careful_actionCell : Careful actionCell.read :=
  careful_bind careful_integer fun _ => careful_bind careful_integer fun _ => careful_bind careful_text
    fun _ => careful_bind careful_integer fun _ => careful_pure _

theorem careful_gotoCell : Careful gotoCell.read :=
  careful_bind careful_integer fun _ => careful_bind careful_integer fun _ =>
    careful_bind careful_integer fun _ => careful_pure _

theorem careful_conflict : Careful conflict.read :=
  careful_bind careful_text fun _ => careful_bind careful_integer fun _ => careful_bind careful_integer
    fun _ => careful_bind (careful_many careful_integer) fun _ => careful_bind careful_text fun _ =>
      careful_bind careful_text fun _ => careful_bind careful_text fun _ => careful_pure _

theorem careful_violation : Careful violation.read :=
  careful_bind careful_integer fun _ => careful_bind careful_integer fun _ =>
    careful_bind careful_integer fun _ => careful_pure _

theorem careful_checkVersion : Careful checkVersion := by
  refine careful_bind careful_text fun found => ?_
  split
  · exact careful_throw _
  · exact careful_pure _

theorem frugal_restoring {f : Format α} (each : Careful f.read) (restore : α → Build Unit) (n : Nat) :
    Frugal (Reader.times n do Reader.onGrammar (restore (← f.read))) :=
  frugal_times (frugal_bind each.frugal fun a => frugal_onGrammar (restore a)) n

theorem frugal_restoreMany {f : Format α} (each : Careful f.read) (restore : α → Build Unit) :
    Frugal (restoreMany f restore) :=
  frugal_bind careful_count.frugal fun n => frugal_bind (frugal_restoring each restore n) fun _ =>
    frugal_pure _

/-! ## Whole streams -/

/-- Reads what comes before the symbols: the method, the name of the start symbol, and how many symbols
there are. -/
def readHead : Reader (String × String × Nat) := do
  checkVersion
  let method ← text.read
  let start ← text.read
  let n ← count.read
  return (method, start, n)

/-- Reads what comes after the symbols: the tables as they are stored. -/
def readBody (method : String) : Reader Tables := do
  restoreMany labelRecord restoreLabel
  restoreMany production fun p => do let _ ← Grammar.restoreProduction p
  let startState ← integer.read
  let stateCount ← integer.read
  let actions ← (many actionCell).read
  let gotos ← (many gotoCell).read
  let conflicts ← (many conflict).read
  let violations ← (many violation).read
  let stateItems ← (many (many text)).read
  return {
    action := .ofList actions, goto := .ofList gotos, startState, stateCount, leftIds := [],
    rightLengths := [], stateItems, conflicts, violations, method }

/-- Reads a stream and restores the grammar, up to its being closed over the start symbol. -/
def readParts : Reader (String × Tables) := do
  let (method, start, n) ← readHead
  let _ ← Reader.times n do Reader.onGrammar (restoreSymbol (← symbolRecord.read))
  let t ← readBody method
  return (start, t)

theorem readTables_eq : readTables = (do
    let (start, t) ← readParts
    Reader.atEnd
    Reader.onGrammar (complete start t)) := by
  simp only [readTables, readParts, readHead, readBody, restoreMany, bind_assoc, pure_bind]

theorem careful_readHead : Careful readHead :=
  careful_bind careful_checkVersion fun _ => careful_bind careful_text fun _ =>
    careful_bind careful_text fun _ => careful_bind careful_count fun _ => careful_pure _

theorem frugal_readBody (method : String) : Frugal (readBody method) := by
  refine frugal_bind (frugal_restoreMany careful_labelRecord _) fun _ => ?_
  refine frugal_bind (frugal_restoreMany careful_production _) fun _ => ?_
  refine frugal_bind careful_integer.frugal fun startState => ?_
  refine frugal_bind careful_integer.frugal fun stateCount => ?_
  refine frugal_bind (careful_many careful_actionCell).frugal fun actions => ?_
  refine frugal_bind (careful_many careful_gotoCell).frugal fun gotos => ?_
  refine frugal_bind (careful_many careful_conflict).frugal fun conflicts => ?_
  refine frugal_bind (careful_many careful_violation).frugal fun violations => ?_
  exact frugal_bind (careful_many (careful_many careful_text)).frugal fun stateItems => frugal_pure _

theorem frugal_readParts : Frugal readParts := by
  refine frugal_bind careful_readHead.frugal fun (method, start, n) => ?_
  refine frugal_bind (frugal_restoring careful_symbolRecord restoreSymbol n) fun _ => ?_
  exact frugal_bind (frugal_readBody method) fun _ => frugal_pure _

/-- Items that are left over are counted. -/
theorem atEnd_eq (r : Reading) : Reader.atEnd r =
    if r.rest = [] then .ok () r else .error (.stream (.trailing r.rest.length)) r := by
  show (if r.rest.isEmpty then pure PUnit.unit
    else throw (.stream (.trailing r.rest.length)) : Reader PUnit) r = _
  by_cases none : r.rest = []
  · rw [if_pos none, if_pos (List.isEmpty_iff.2 none)]
    rfl
  · rw [if_neg none, if_neg (mt List.isEmpty_iff.1 none)]
    rfl

variable {stream : List Value} {t : Tables}

/-- The parts of a stream that is decoded are all of it. -/
theorem consumes_of_decode (decoded : decode stream = .ok (g, t)) :
    ∃ parts h, Consumes readParts stream .fresh parts h := by
  rw [decode] at decoded
  split at decoded
  · rename_i t' r ended
    rw [readTables_eq] at ended
    obtain ⟨parts, r₁, read, ended⟩ := bind_eq_ok.1 ended
    obtain ⟨⟨⟩, r₂, checked, -⟩ := bind_eq_ok.1 ended
    obtain ⟨xs, rest, consumed⟩ := frugal_readParts read
    have none : r₁.rest = [] := by
      by_contra left
      rw [atEnd_eq, if_neg left] at checked
      cases checked
    rw [none, List.append_nil] at rest
    obtain rfl : stream = xs := rest
    exact ⟨parts, r₁.grammar, consumed⟩
  · cases decoded

/-- Of a stream that is decoded no proper first part is decoded, nor any stream that goes on behind it: the
one is found to end too early and the other too late, and the message tells where. -/
theorem decode_prefix_free (decoded : decode stream = .ok (g, t)) :
    (∀ front, front <+: stream → front ≠ stream →
      ∃ e, decode front = .error e ∧ e = .stream (.truncated front.length) ∧
        e.message = s!"truncated table stream at item {front.length}") ∧
    ∀ more, more ≠ [] →
      ∃ e, decode (stream ++ more) = .error e ∧ e = .stream (.trailing more.length) ∧
        e.message = s!"trailing data in table stream ({more.length} items)" := by
  obtain ⟨⟨start, u⟩, h, consumed⟩ := consumes_of_decode decoded
  constructor
  · intro front within less
    obtain ⟨r, stopped⟩ := consumed.cut 0 front within less
    refine ⟨_, ?_, rfl, rfl⟩
    rw [decode, readTables_eq, bind_of_error stopped, Nat.zero_add]
    rfl
  · intro more left
    have refused := atEnd_eq ⟨0 + stream.length, more, h⟩
    rw [if_neg left] at refused
    have ended : readTables ⟨0, stream ++ more, .fresh⟩ =
        .error (.stream (.trailing more.length)) ⟨0 + stream.length, more, h⟩ := by
      rw [readTables_eq]
      exact (bind_of_ok (consumed.takes 0 more)).trans (bind_of_error refused)
    refine ⟨_, ?_, rfl, rfl⟩
    rw [decode, ended]
    rfl

theorem decode_prefix_free_sums :
    ∃ (stream : List Value) (g : Grammar) (t : Tables),
      Grammar.streamOf .lalr Grammar.sums = stream ∧ decode stream = .ok (g, t) ∧
      decode stream.dropLast = .error (.stream (.truncated (stream.length - 1))) ∧
      decode (stream ++ [.null]) = .error (.stream (.trailing 1)) := by
  have accepted : (decode (Grammar.streamOf .lalr Grammar.sums)).toOption.isSome = true := by
    decide +kernel
  have filled : (Grammar.streamOf .lalr Grammar.sums).isEmpty = false := by decide +kernel
  generalize Grammar.streamOf .lalr Grammar.sums = stream at accepted filled
  have less : stream.dropLast ≠ stream := by
    cases stream with
    | nil => cases filled
    | cons v vs =>
      intro eq
      have := congrArg List.length eq
      simp at this
  cases decoded : decode stream with
  | error e =>
    rw [decoded] at accepted
    cases accepted
  | ok parts =>
    obtain ⟨cut, going⟩ := decode_prefix_free decoded
    obtain ⟨e, stopped, rfl, -⟩ := cut _ (List.dropLast_prefix _) less
    obtain ⟨e', refused, rfl, -⟩ := going [.null] (List.cons_ne_nil _ _)
    rw [List.length_dropLast] at stopped
    exact ⟨stream, parts.1, parts.2, rfl, decoded, stopped, refused⟩

end ParserGenerator.Storage

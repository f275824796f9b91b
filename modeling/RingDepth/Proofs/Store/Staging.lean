import RingDepth.Proofs.Outcome
import RingDepth.Store.Batch

/-!
# Writes under way

A write to the tables is a sequence of calls of the engine, each of which puts one entry or looks one up. The engine
shows the write what it has put so far, and all others the tables as they were until the write is committed. It may
refuse any of the calls, and a count may turn out to be undecodable after an entry was put, so a write may stop with
some of its entries put and others not.

Call by call, each operation of a batch does what the operation on the tables does, as far as it gets.
-/

namespace RingDepth

/-- The calls of one write that the engine refuses, by their number. -/
abbrev Refusals := ℕ → Option EngineError

/-- A write that is under way: the tables as all others see them, the tables as the write sees them, and the
number of calls so far. -/
structure PendingWrite where
  committed : Tables
  seen : Tables
  calls : ℕ

/-- A part of a write with an engine that refuses some calls. If it fails, then what it has put until then
stays put. -/
structure Staging (α : Type) where
  run : Refusals → PendingWrite → Except (Halt TableError) α × PendingWrite

namespace Staging

variable {α β : Type}

instance : Monad Staging where
  pure a := ⟨fun _ w => (.ok a, w)⟩
  bind x f := ⟨fun refuses w =>
    match x.run refuses w with
    | (.ok a, w) => (f a).run refuses w
    | (.error e, w) => (.error e, w)⟩

/-- Comes to a result without the engine. -/
def lift (x : Except (Halt TableError) α) : Staging α := ⟨fun _ w => (x, w)⟩

/-- Calls the engine, which may refuse. -/
def call (f : PendingWrite → α × PendingWrite) : Staging α := ⟨fun refuses w =>
  match refuses w.calls with
  | some e => (.error (.failure (.engine e)), { w with calls := w.calls + 1 })
  | none =>
    let (a, w) := f { w with calls := w.calls + 1 }
    (.ok a, w)⟩

/-- Puts an entry into a database. -/
def put (database : Database) (key value : Bytes) : Staging Unit :=
  call fun w =>
    ((), { w with seen := w.seen.withTable database ((w.seen.table database).insert key value) })

/-- Looks up an entry of a database. -/
def get (database : Database) (key : Bytes) : Staging (Option Bytes) :=
  call fun w => ((w.seen.table database)[key]?, w)

/-- Begins a write. -/
def start : Staging Unit := call fun w => ((), w)

/-- Commits a write: all others see the tables as it does. -/
def commit : Staging Unit := call fun w => ((), { w with committed := w.seen })

/-! ### The operations of a batch -/

/-- Stores an encoded block and points its height at it. -/
def insertBlock (height : UInt64) (hash : BlockHash) (bytes : Bytes) : Staging Unit := do
  put .blocks hash.bytes bytes
  put .blockHeights (Tables.numberKey height) hash.bytes

/-- Stores an encoded transaction. -/
def insertTransaction (hash : TxHash) (bytes : Bytes) : Staging Unit :=
  put .transactions hash.bytes bytes

/-- The number that a count stands for, or zero if there is none. -/
def readCount : Option Bytes → Except (Halt TableError) UInt64
  | none => .ok 0
  | some bytes =>
    match Tables.number? bytes with
    | some n => .ok n
    | none => .error (.failure .outputCount)

/-- The number that the next output of an amount gets. -/
def outputCount (amount : UInt64) : Staging UInt64 := do
  let found ← get .outputCounts (Tables.numberKey amount)
  lift (readCount found)

/-- Raises the number of outputs of an amount above an index, if it is not above it. -/
def raiseCount (id : OutputId) (count : UInt64) : Staging Unit :=
  if id.index < count then return
  else do
    let next ← lift (addCounter id.index 1)
    put .outputCounts (Tables.numberKey id.amount) (Tables.numberKey next)

/-- Stores the location of an output, and then raises the number of outputs above its index. -/
def insertOutput (id : OutputId) (location : OutputLocation) : Staging Unit := do
  put .outputs (Tables.outputKey id) (Codec.encode location)
  let count ← outputCount id.amount
  raiseCount id count

/-- Stores the location of the next output of an amount, and gives its number. -/
def appendOutput (amount : UInt64) (location : OutputLocation) : Staging UInt64 := do
  let index ← outputCount amount
  insertOutput ⟨amount, index⟩ location
  return index

/-- Does one operation; those that answer a number give it. -/
def step : BatchStep → Staging (Option UInt64)
  | .insertBlock height hash bytes => do
    insertBlock height hash bytes
    return none
  | .insertTransaction hash bytes => do
    insertTransaction hash bytes
    return none
  | .insertOutput id location => do
    insertOutput id location
    return none
  | .appendOutput amount location => do
    let index ← appendOutput amount location
    return some index
  | .outputCount amount => do
    let count ← outputCount amount
    return some count

/-- Does operations in order; the first that fails ends them. -/
def steps : List BatchStep → Staging (List (Option UInt64))
  | [] => return []
  | s :: rest => do
    let answer ← step s
    let answers ← steps rest
    return answer :: answers

/-- Fails if there are more heights than a counter holds. -/
def checkRoom : Staging Unit :=
  ⟨fun _ w => (if UInt64.size ≤ w.seen.blockHeights.size then .error .overflow else .ok (), w)⟩

/-- Stores all that a block adds. -/
def writeBlock (w : BlockWrite) : Staging Unit := do
  w.transactions.forM fun (hash, bytes) => insertTransaction hash bytes
  w.outputs.forM fun (amount, location) => do
    let _ ← appendOutput amount location
  insertBlock w.height w.hash w.bytes
  checkRoom

/-! ### What a part of a write does -/

/-- How a part of a write may end that comes to an outcome on the tables which the write sees: it has this outcome, or
the engine refuses one of its calls. What all others see stays as it is. -/
inductive Ends (refuses : Refusals) (w : PendingWrite) (outcome : Except (Halt TableError) (α × Tables)) :
    Except (Halt TableError) α × PendingWrite → Prop
  | done (a : α) (seen : Tables) (calls : ℕ) (h : outcome = .ok (a, seen)) :
    Ends refuses w outcome (.ok a, { w with seen, calls })
  | failed (e : Halt TableError) (seen : Tables) (calls : ℕ) (h : outcome = .error e) :
    Ends refuses w outcome (.error e, { w with seen, calls })
  | refused (n : ℕ) (e : EngineError) (seen : Tables) (calls : ℕ) (h : refuses n = some e) :
    Ends refuses w outcome (.error (.failure (.engine e)), { w with seen, calls })

/-- Whether a part of a write does what a function on the tables says, unless the engine refuses one of its calls. -/
def Does (x : Staging α) (f : Tables → Except (Halt TableError) (α × Tables)) : Prop :=
  ∀ refuses w, Ends refuses w (f w.seen) (x.run refuses w)

/-- A value is there without a change to the tables. -/
theorem does_pure (a : α) : Does (pure a) fun t => .ok (a, t) :=
  fun _ w => .done a w.seen w.calls rfl

/-- So is a result. -/
theorem does_lift (x : Except (Halt TableError) α) : Does (lift x) fun t => x.map (·, t) := by
  intro refuses w
  cases x with
  | ok a => exact .done a w.seen w.calls rfl
  | error e => exact .failed e w.seen w.calls rfl

/-- Two parts do what they say one after the other. -/
theorem Does.bind {x : Staging α} {f : Tables → Except (Halt TableError) (α × Tables)} {g : α → Staging β}
    {h : α → Tables → Except (Halt TableError) (β × Tables)} (hx : Does x f) (hg : ∀ a, Does (g a) (h a)) :
    Does (x >>= g) fun t => f t >>= fun r => h r.1 r.2 := by
  intro refuses w
  have hfirst := hx refuses w
  change Ends refuses w (f w.seen >>= fun r => h r.1 r.2) (match x.run refuses w with
    | (.ok a, w) => (g a).run refuses w
    | (.error e, w) => (.error e, w))
  generalize f w.seen = outcome, x.run refuses w = ended at hfirst ⊢
  cases hfirst with
  | failed e seen calls hf => exact .failed e seen calls (by rw [hf]; rfl)
  | refused n e seen calls hn => exact .refused n e seen calls hn
  | done a seen calls hf =>
    subst hf
    have hsecond := hg a refuses { w with seen, calls }
    change Ends refuses w (h a seen) ((g a).run refuses { w with seen, calls })
    change Ends refuses { w with seen, calls } (h a seen) _ at hsecond
    generalize h a seen = outcome, (g a).run refuses { w with seen, calls } = ended at hsecond ⊢
    cases hsecond with
    | done b seen calls hh => exact .done b seen calls hh
    | failed e seen calls hh => exact .failed e seen calls hh
    | refused n e seen calls hn => exact .refused n e seen calls hn

/-- A call does what it says, unless it is refused. -/
theorem does_call {f : PendingWrite → α × PendingWrite} {g : Tables → α × Tables}
    (h : ∀ w, f w = ((g w.seen).1, { w with seen := (g w.seen).2 })) : Does (call f) fun t => .ok (g t) := by
  intro refuses w
  simp only [call, h]
  cases hrefuses : refuses w.calls with
  | some e => exact .refused w.calls e w.seen (w.calls + 1) hrefuses
  | none => exact .done (g w.seen).1 (g w.seen).2 (w.calls + 1) rfl

/-- An entry that is put is in its table. -/
theorem does_put (database : Database) (key value : Bytes) : Does (put database key value) fun t =>
    .ok ((), t.withTable database ((t.table database).insert key value)) :=
  does_call fun _ => rfl

/-- An entry is looked up in its table. -/
theorem does_get (database : Database) (key : Bytes) : Does (get database key) fun t =>
    .ok ((t.table database)[key]?, t) :=
  does_call fun _ => rfl

/-- What a part of a write does can be said in another way. -/
theorem Does.congr {x : Staging α} {f g : Tables → Except (Halt TableError) (α × Tables)} (h : Does x f)
    (heq : ∀ t, f t = g t) : Does x g :=
  funext heq ▸ h

/-! ### What the operations do -/

/-- Storing a block call by call stores it. -/
theorem does_insertBlock (height : UInt64) (hash : BlockHash) (bytes : Bytes) :
    Does (insertBlock height hash bytes) fun t => .ok ((), t.insertBlock height hash bytes) :=
  (does_put _ _ _).bind fun _ => does_put _ _ _

/-- Storing a transaction stores it. -/
theorem does_insertTransaction (hash : TxHash) (bytes : Bytes) :
    Does (insertTransaction hash bytes) fun t => .ok ((), t.insertTransaction hash bytes) :=
  does_put _ _ _

/-- A count is read from what is found of it. -/
theorem readCount_eq (t : Tables) (amount : UInt64) :
    readCount (t.table .outputCounts)[Tables.numberKey amount]? = (t.outputCount amount).mapError .failure := by
  rw [Tables.outputCount]
  change readCount t.outputCounts[Tables.numberKey amount]? = _
  cases t.outputCounts[Tables.numberKey amount]? with
  | none => rfl
  | some bytes =>
    dsimp only [readCount]
    cases Tables.number? bytes <;> rfl

/-- Looking up a count reads it. -/
theorem does_outputCount (amount : UInt64) :
    Does (outputCount amount) fun t => ((t.outputCount amount).mapError .failure).map (·, t) := by
  refine ((does_get _ _).bind fun found => does_lift (readCount found)).congr fun t => ?_
  rw [← readCount_eq]
  rfl

/-- Raising a count raises it. -/
theorem does_raiseCount (id : OutputId) (count : UInt64) : Does (raiseCount id count) fun t =>
    if id.index < count then .ok ((), t)
    else (addCounter id.index 1).map fun next =>
      ((), { t with outputCounts := t.outputCounts.insert (Tables.numberKey id.amount) (Tables.numberKey next) }) := by
  rw [raiseCount]
  split_ifs
  · exact does_pure ()
  · refine ((does_lift _).bind fun next => does_put _ _ _).congr fun t => ?_
    cases (addCounter id.index 1 : Except (Halt TableError) UInt64) <;> rfl

/-- Storing an output call by call stores it. -/
theorem does_insertOutput (id : OutputId) (location : OutputLocation) :
    Does (insertOutput id location) fun t => (t.insertOutput id location).map ((), ·) := by
  refine ((does_put _ _ _).bind fun _ => (does_outputCount id.amount).bind (does_raiseCount id)).congr fun t => ?_
  let stored : Tables := { t with outputs := t.outputs.insert (Tables.outputKey id) (Codec.encode location) }
  change (Except.map (·, stored) ((stored.outputCount id.amount).mapError Halt.failure) >>= fun r => _) =
    Except.map _ ((stored.outputCount id.amount).mapError Halt.failure >>= fun count => _)
  cases stored.outputCount id.amount with
  | error e => rfl
  | ok count =>
    change (if id.index < count then _ else _) = Except.map _ (if id.index < count then _ else _)
    split_ifs
    · rfl
    · cases (addCounter id.index 1 : Except (Halt TableError) UInt64) <;> rfl

/-- Appending an output call by call appends it. -/
theorem does_appendOutput (amount : UInt64) (location : OutputLocation) :
    Does (appendOutput amount location) fun t => t.appendOutput amount location := by
  refine ((does_outputCount amount).bind fun index =>
    (does_insertOutput ⟨amount, index⟩ location).bind fun _ => does_pure index).congr fun t => ?_
  change (Except.map (·, t) ((t.outputCount amount).mapError Halt.failure) >>= fun r => _) =
    ((t.outputCount amount).mapError Halt.failure >>= fun index => _)
  cases t.outputCount amount with
  | error e => rfl
  | ok index =>
    change (Except.map _ (t.insertOutput ⟨amount, index⟩ location) >>= fun r => _) =
      (t.insertOutput ⟨amount, index⟩ location >>= fun t => _)
    cases t.insertOutput ⟨amount, index⟩ location <;> rfl

/-- An operation of a batch does what it does on the tables. -/
theorem does_step (s : BatchStep) : Does (step s) fun t => t.step s := by
  cases s with
  | insertBlock height hash bytes =>
    exact (does_insertBlock height hash bytes).bind fun _ => does_pure none
  | insertTransaction hash bytes =>
    exact (does_insertTransaction hash bytes).bind fun _ => does_pure none
  | insertOutput id location =>
    refine ((does_insertOutput id location).bind fun _ => does_pure none).congr fun t => ?_
    rw [Tables.step]
    cases t.insertOutput id location <;> rfl
  | appendOutput amount location =>
    refine ((does_appendOutput amount location).bind fun index => does_pure (some index)).congr fun t => ?_
    rw [Tables.step]
    cases t.appendOutput amount location <;> rfl
  | outputCount amount =>
    refine ((does_outputCount amount).bind fun count => does_pure (some count)).congr fun t => ?_
    rw [Tables.step]
    cases t.outputCount amount <;> rfl

/-- The operations of a batch do what they do on the tables, one after the other. -/
theorem does_steps (batch : List BatchStep) : Does (steps batch) fun t => t.runBatch batch := by
  induction batch with
  | nil => exact does_pure []
  | cons s rest ih =>
    refine ((does_step s).bind fun answer => ih.bind fun answers => does_pure (answer :: answers)).congr fun t => ?_
    rw [Tables.runBatch]
    cases t.step s with
    | error e => rfl
    | ok r =>
      change (Tables.runBatch r.2 rest >>= fun r => _) = (Tables.runBatch r.2 rest >>= fun r => _)
      cases Tables.runBatch r.2 rest <;> rfl

/-- Transactions that are stored one after the other are all stored. -/
theorem does_insertTransactions (entries : List (TxHash × Bytes)) :
    Does (entries.forM fun (hash, bytes) => insertTransaction hash bytes) fun t =>
      .ok ((), entries.foldl (fun t (hash, bytes) => t.insertTransaction hash bytes) t) := by
  induction entries with
  | nil => exact does_pure ()
  | cons entry rest ih => exact (does_insertTransaction entry.1 entry.2).bind fun _ => ih

/-- Outputs that are appended one after the other are all appended. -/
theorem does_appendOutputs (outputs : List (UInt64 × OutputLocation)) :
    Does (outputs.forM fun (amount, location) => do
        let _ ← appendOutput amount location) fun t =>
      (outputs.foldlM (fun (t : Tables) (amount, location) => (t.appendOutput amount location).map Prod.snd) t).map
        ((), ·) := by
  induction outputs with
  | nil => exact does_pure ()
  | cons entry rest ih =>
    obtain ⟨amount, location⟩ := entry
    refine (((does_appendOutput amount location).bind fun _ => does_pure ()).bind fun _ => ih).congr
      fun t => ?_
    rw [List.foldlM_cons]
    dsimp only
    cases t.appendOutput amount location <;> rfl

/-- Heights are checked against what a counter holds. -/
theorem does_checkRoom : Does checkRoom fun t =>
    if UInt64.size ≤ t.blockHeights.size then .error .overflow else .ok ((), t) := by
  intro refuses w
  dsimp only [checkRoom]
  split_ifs with h
  · exact .failed .overflow w.seen w.calls rfl
  · exact .done () w.seen w.calls rfl

/-- Writing a block call by call writes it. -/
theorem does_writeBlock (w : BlockWrite) : Does (writeBlock w) fun t => (t.writeBlock w).map ((), ·) := by
  refine ((does_insertTransactions w.transactions).bind fun _ => (does_appendOutputs w.outputs).bind fun _ =>
    (does_insertBlock w.height w.hash w.bytes).bind fun _ => does_checkRoom).congr fun t => ?_
  rw [Tables.writeBlock]
  let filled := w.transactions.foldl (fun t (hash, bytes) => t.insertTransaction hash bytes) t
  change (Except.map _ (w.outputs.foldlM _ filled) >>= fun r => _) =
    Except.map _ (w.outputs.foldlM _ filled >>= fun numbered => _)
  cases w.outputs.foldlM
    (fun t (amount, location) => (t.appendOutput amount location).map Prod.snd) filled with
  | error e => rfl
  | ok numbered =>
    change (if UInt64.size ≤ (numbered.insertBlock w.height w.hash w.bytes).blockHeights.size then _ else _) =
      Except.map _ (if UInt64.size ≤ (numbered.insertBlock w.height w.hash w.bytes).blockHeights.size
        then _ else _)
    split_ifs <;> rfl

end Staging

end RingDepth

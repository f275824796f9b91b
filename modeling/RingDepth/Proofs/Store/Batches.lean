import RingDepth.Proofs.Store.Staging
import RingDepth.Proofs.Store.Tables
import RingDepth.Store.Mapped

/-!
# All or nothing

A write to a ledger directory begins, does its part and is committed, each by calls of the engine. It may stop at any
of them, also after entries were put, and all others see what it did only if it comes to its end and is committed. So
the running definitions, in which a write gives new tables or an error, say all that is found afterwards, and a batch is
no more than its operations one by one.
-/

namespace RingDepth

namespace Staging

variable {α : Type} {x : Staging α} {f : Tables → Except (Halt TableError) (α × Tables)}

/-- Begins a write and does a part. -/
def begun (x : Staging α) : Staging α := do
  start
  x

/-- Commits a write if it is to be. -/
def finish (committing : Bool) : Staging Unit := if committing then commit else return

/-- A whole write: it begins, does its part, and is committed if it is to be. -/
def whole (x : Staging α) (committing : Bool) : Staging α := do
  let a ← begun x
  finish committing
  return a

section

variable {β : Type} {g : α → Staging β} {refuses : Refusals} {w w' : PendingWrite}

/-- What follows a part that is done goes on from there. -/
theorem run_bind_of_ok {a : α} (h : x.run refuses w = (.ok a, w')) :
    (x >>= g).run refuses w = (g a).run refuses w' := by
  simp only [bind, h]

/-- Nothing follows a part that fails. -/
theorem run_bind_of_error {e : Halt TableError} (h : x.run refuses w = (.error e, w')) :
    (x >>= g).run refuses w = (.error e, w') := by
  simp only [bind, h]

end

/-- A part that is begun does what it says. -/
theorem does_begun (hx : Does x f) : Does (begun x) f :=
  (does_call (f := fun w => ((), w)) (g := fun t => ((), t)) fun _ => rfl).bind fun _ => hx

/-- A write that is to be committed shows all others its tables, unless the engine refuses; one that is not to be shows
them nothing. -/
theorem finish_cases (refuses : Refusals) (w : PendingWrite) (committing : Bool) :
    (∃ c w', refuses w.calls = some c ∧ w'.committed = w.committed ∧
        (finish committing).run refuses w = (.error (.failure (.engine c)), w')) ∨
      ∃ w', (finish committing).run refuses w = (.ok (), w') ∧
        w'.committed = if committing then w.seen else w.committed := by
  cases committing with
  | false => exact .inr ⟨w, rfl, rfl⟩
  | true =>
    simp only [finish, commit, call, if_true]
    cases hrefuses : refuses w.calls with
    | some c => exact .inl ⟨c, { w with calls := w.calls + 1 }, rfl, rfl, rfl⟩
    | none => exact .inr ⟨{ committed := w.seen, seen := w.seen, calls := w.calls + 1 }, rfl, rfl⟩

/-- A whole write fails, and then all others see what they saw before; or it ends with the result of its part, and then
they see its tables if it was committed. -/
theorem whole_cases (hx : Does x f) (refuses : Refusals) (w : PendingWrite) (committing : Bool) :
    (∃ e w', (whole x committing).run refuses w = (.error e, w') ∧ w'.committed = w.committed ∧
        (f w.seen = .error e ∨ ∃ n c, refuses n = some c ∧ e = .failure (.engine c))) ∨
      ∃ a t w', (whole x committing).run refuses w = (.ok a, w') ∧ f w.seen = .ok (a, t) ∧
        w'.committed = if committing then t else w.committed := by
  have hbegun := does_begun hx refuses w
  rw [whole]
  generalize hended : (begun x).run refuses w = ended at hbegun
  cases hbegun with
  | failed e seen calls h => exact .inl ⟨e, _, run_bind_of_error hended, rfl, .inl h⟩
  | refused n c seen calls h => exact .inl ⟨_, _, run_bind_of_error hended, rfl, .inr ⟨n, c, h, rfl⟩⟩
  | done a seen calls h =>
    rw [run_bind_of_ok hended]
    obtain ⟨c, w', hrefuses, hkept, hfinish⟩ | ⟨w', hfinish, hcommitted⟩ :=
      finish_cases refuses { w with seen, calls } committing
    · exact .inl ⟨_, w', run_bind_of_error hfinish, hkept, .inr ⟨calls, c, hrefuses, rfl⟩⟩
    · exact .inr ⟨a, seen, w', run_bind_of_ok hfinish, h, hcommitted⟩

end Staging

/-- The result of a write and the store after it, which is as before if the write failed. -/
def settle {α ε σ : Type} (s : σ) : Except ε (α × σ) → Except ε α × σ
  | .ok (answer, s') => (.ok answer, s')
  | .error cause => (.error cause, s)

/-- How a write may end under an engine that refuses calls: with its outcome on the tables, or the engine refuses a call
and the environment is as before. -/
inductive Environment.Comes {α ε : Type} (e : Environment) (refuses : Refusals) (wording : EngineError → ε)
    (outcome : Except ε (α × Environment)) : Except ε α × Environment → Prop
  | settled : Comes e refuses wording outcome (settle e outcome)
  | refused (n : ℕ) (c : EngineError) (h : refuses n = some c) :
    Comes e refuses wording outcome (.error (wording c), e)

namespace Environment

section

variable {α : Type} {x : Staging α} {f : Tables → Except (Halt TableError) (α × Tables)}

/-- Runs a write that comes to an answer, and keeps what it did if it is committed. -/
def runWrite (e : Environment) (f : Tables → Except (Halt TableError) (α × Tables)) (committing : Bool) :
    Except (Halt TableError) (α × Environment) := do
  e.checkWritable
  let (answer, tables) ← f e.tables
  return (answer, if committing then { e with tables } else e)

/-- Attempts a write call by call, with an engine that refuses some of the calls. Gives the result and the environment
that is found after it. -/
def attempt (e : Environment) (refuses : Refusals) (x : Staging α) (committing : Bool) :
    Except (Halt TableError) α × Environment :=
  match e.checkWritable with
  | .error cause => (.error (.failure cause), e)
  | .ok _ =>
    let ended := (x.whole committing).run refuses { committed := e.tables, seen := e.tables, calls := 0 }
    (ended.1, { e with tables := ended.2.committed })

/-- A refusal of the engine as the failure of a batch. -/
abbrev batchFailure (c : EngineError) : Halt TableError := .failure (.engine c)

/-- A write that is attempted call by call does what it does on the tables, or the engine refuses a call and the
environment is as before. -/
theorem attempt_comes (hx : x.Does f) (e : Environment) (refuses : Refusals) (committing : Bool) :
    Comes e refuses batchFailure (e.runWrite f committing) (e.attempt refuses x committing) := by
  rw [attempt]
  cases hwritable : e.checkWritable with
  | error cause =>
    have hrun : e.runWrite f committing = .error (.failure cause) := by
      rw [runWrite, hwritable]
      rfl
    rw [hrun]
    exact .settled
  | ok _ =>
    have hrun : e.runWrite f committing = f e.tables >>= fun r =>
        .ok (r.1, if committing then { e with tables := r.2 } else e) := by
      rw [runWrite, hwritable]
      rfl
    dsimp only
    obtain ⟨cause, w, hwhole, hkept, hcause⟩ | ⟨a, t, w, hwhole, hf, hcommitted⟩ :=
      Staging.whole_cases hx refuses { committed := e.tables, seen := e.tables, calls := 0 } committing
    · rw [hwhole]
      dsimp only
      rw [hkept]
      obtain hf | ⟨n, c, hrefuses, rfl⟩ := hcause
      · rw [hrun, hf]
        exact .settled
      · exact .refused n c hrefuses
    · rw [hwhole, hrun, hf]
      dsimp only
      rw [hcommitted]
      cases committing <;> exact .settled

end

/-! ### Batches -/

variable {e e' : Environment} {steps : List BatchStep} {answers : List (Option UInt64)}

/-- Runs a batch call by call, with an engine that refuses some of the calls. -/
def batch (e : Environment) (refuses : Refusals) (steps : List BatchStep) (committing : Bool) :
    Except (Halt TableError) (List (Option UInt64)) × Environment :=
  e.attempt refuses (.steps steps) committing

/-- Does operations one by one, each in a batch of its own that is committed. -/
def oneByOne (e : Environment) : List BatchStep → Except (Halt TableError) (List (Option UInt64) × Environment)
  | [] => .ok ([], e)
  | s :: rest => do
    let (answer, e) ← e.runBatch [s] true
    let (answers, e) ← e.oneByOne rest
    return (answer ++ answers, e)

/-- What may become of a batch: it fails and nothing is changed, it ends without a commit and nothing is changed, or it
is committed and all is as if its operations were done one by one. -/
inductive AllOrNothing (e : Environment) (steps : List BatchStep) :
    Bool → Except (Halt TableError) (List (Option UInt64)) × Environment → Prop
  | failed (committing : Bool) (cause : Halt TableError) : AllOrNothing e steps committing (.error cause, e)
  | dropped (answers : List (Option UInt64)) (e' : Environment) (h : e.oneByOne steps = .ok (answers, e')) :
    AllOrNothing e steps false (.ok answers, e)
  | committed (answers : List (Option UInt64)) (e' : Environment) (h : e.oneByOne steps = .ok (answers, e')) :
    AllOrNothing e steps true (.ok answers, e')

/-- An environment is checked to be writable exactly when it is. -/
theorem checkWritable_eq_ok_iff {u : Unit} : e.checkWritable = .ok u ↔ e.readOnly = false := by
  rw [checkWritable]
  cases e.readOnly <;> simp

/-- A batch succeeds exactly when the environment may be written and the operations succeed on the tables. -/
theorem runBatch_eq_ok_iff {committing : Bool} : e.runBatch steps committing = .ok (answers, e') ↔
    e.readOnly = false ∧ ∃ tables, e.tables.runBatch steps = .ok (answers, tables) ∧
      (if committing then { e with tables } else e) = e' := by
  constructor
  · intro h
    obtain ⟨⟨⟩, hcheck, hbody⟩ := bind_eq_ok_iff.mp h
    obtain ⟨⟨a, tables⟩, hrun, heq⟩ := bind_eq_ok_iff.mp hbody
    cases heq
    exact ⟨checkWritable_eq_ok_iff.mp (monadLift_eq_ok_iff.mp hcheck), tables, hrun, rfl⟩
  · rintro ⟨hwritable, tables, hrun, rfl⟩
    have hcheck : e.checkWritable = .ok () := checkWritable_eq_ok_iff.mpr hwritable
    exact bind_eq_ok_iff.mpr ⟨(), monadLift_eq_ok_iff.mpr hcheck, bind_eq_ok_iff.mpr ⟨_, hrun, rfl⟩⟩

/-- A batch that is committed does what its operations do one by one. -/
theorem oneByOne_of_runBatch {tables : Tables} (hwritable : e.readOnly = false)
    (h : e.tables.runBatch steps = .ok (answers, tables)) :
    e.oneByOne steps = .ok (answers, { e with tables }) := by
  induction steps generalizing e answers with
  | nil =>
    cases h
    rfl
  | cons s rest ih =>
    obtain ⟨⟨answer, t⟩, hstep, hbody⟩ := bind_eq_ok_iff.mp h
    obtain ⟨⟨more, t'⟩, hrest, heq⟩ := bind_eq_ok_iff.mp hbody
    cases heq
    have hfirst : e.runBatch [s] true = .ok ([answer], { e with tables := t }) :=
      runBatch_eq_ok_iff.mpr ⟨hwritable, t, bind_eq_ok_iff.mpr ⟨_, hstep, rfl⟩, rfl⟩
    have hlater := ih (e := { e with tables := t }) hwritable hrest
    exact bind_eq_ok_iff.mpr ⟨_, hfirst, bind_eq_ok_iff.mpr ⟨_, hlater, rfl⟩⟩

/-- What a batch does on the tables is all or nothing. -/
theorem allOrNothing_runBatch (e : Environment) (steps : List BatchStep) (committing : Bool) :
    e.AllOrNothing steps committing (settle e (e.runBatch steps committing)) := by
  cases h : e.runBatch steps committing with
  | error cause => exact .failed committing cause
  | ok r =>
    obtain ⟨answers, e'⟩ := r
    obtain ⟨hwritable, tables, hrun, rfl⟩ := runBatch_eq_ok_iff.mp h
    have hsteps := oneByOne_of_runBatch hwritable hrun
    cases committing with
    | false => exact .dropped _ _ hsteps
    | true => exact .committed _ _ hsteps

/-- A batch under an engine that may refuse calls does what it does on the tables, unless a call is refused. -/
theorem batch_comes (e : Environment) (refuses : Refusals) (steps : List BatchStep) (committing : Bool) :
    Comes e refuses batchFailure (e.runBatch steps committing) (e.batch refuses steps committing) :=
  attempt_comes (Staging.does_steps steps) e refuses committing

/-- So it is all or nothing. -/
theorem allOrNothing_batch (e : Environment) (refuses : Refusals) (steps : List BatchStep) (committing : Bool) :
    e.AllOrNothing steps committing (e.batch refuses steps committing) := by
  have hcomes := batch_comes e refuses steps committing
  generalize e.batch refuses steps committing = ended at hcomes
  cases hcomes with
  | settled => exact allOrNothing_runBatch e steps committing
  | refused n c h => exact .failed committing _

end Environment

/-! ### Single calls -/

/-- A call that writes to a store. -/
inductive WriteCall where
  | insertBlock (height : UInt64) (hash : BlockHash) (bytes : Bytes)
  | insertTransaction (hash : TxHash) (bytes : Bytes)
  | insertOutput (id : OutputId) (location : OutputLocation)
  | writeBlock (w : BlockWrite)

namespace WriteCall

/-- Does a call. -/
def run {σ : Type} [Store σ] (s : σ) : WriteCall → Except (Halt StoreError) σ
  | insertBlock height hash bytes => liftM (Store.insertBlock s height hash bytes)
  | insertTransaction hash bytes => liftM (Store.insertTransaction s hash bytes)
  | insertOutput id location => Store.insertOutput s id location
  | writeBlock w => Store.writeBlock s w

/-- What a call does to the tables. -/
def runOn (t : Tables) : WriteCall → Except (Halt TableError) Tables
  | insertBlock height hash bytes => .ok (t.insertBlock height hash bytes)
  | insertTransaction hash bytes => .ok (t.insertTransaction hash bytes)
  | insertOutput id location => t.insertOutput id location
  | writeBlock w => t.writeBlock w

/-- The operations that do what a call does. -/
def steps : WriteCall → List BatchStep
  | insertBlock height hash bytes => [.insertBlock height hash bytes]
  | insertTransaction hash bytes => [.insertTransaction hash bytes]
  | insertOutput id location => [.insertOutput id location]
  | writeBlock w => w.steps

/-- What a call does, call by call of the engine. -/
def staging : WriteCall → Staging Unit
  | insertBlock height hash bytes => .insertBlock height hash bytes
  | insertTransaction hash bytes => .insertTransaction hash bytes
  | insertOutput id location => .insertOutput id location
  | writeBlock w => .writeBlock w

/-- A call does call by call what it does to the tables. -/
theorem does_staging (c : WriteCall) : Staging.Does c.staging fun t => (c.runOn t).map ((), ·) := by
  cases c with
  | insertBlock height hash bytes => exact Staging.does_insertBlock height hash bytes
  | insertTransaction hash bytes => exact Staging.does_insertTransaction hash bytes
  | insertOutput id location => exact Staging.does_insertOutput id location
  | writeBlock w => exact Staging.does_writeBlock w

/-- A call of an environment is a write of its own to the tables. -/
theorem run_eq_transact (e : Environment) (c : WriteCall) :
    c.run e = Halt.within TableError.toStoreError (e.transact c.runOn) := by
  cases c with
  | insertBlock height hash bytes =>
    change liftM (e.write _) = _
    rw [Environment.write, Environment.transact]
    cases e.checkWritable <;> rfl
  | insertTransaction hash bytes =>
    change liftM (e.write _) = _
    rw [Environment.write, Environment.transact]
    cases e.checkWritable <;> rfl
  | insertOutput id location => rfl
  | writeBlock w => rfl

/-- It is a write without an answer that is committed. -/
theorem run_eq_runWrite (e : Environment) (c : WriteCall) : (c.run e).map ((), ·) =
    Halt.within TableError.toStoreError (e.runWrite (fun t => (c.runOn t).map ((), ·)) true) := by
  rw [run_eq_transact, Environment.transact, Environment.runWrite]
  cases e.checkWritable with
  | error cause => rfl
  | ok _ =>
    change Except.map _ (Halt.within _ (c.runOn e.tables >>= fun tables => _)) =
      Halt.within _ (Except.map _ (c.runOn e.tables) >>= fun r => _)
    cases c.runOn e.tables <;> rfl

/-- A refusal of the engine as the failure of a call. -/
abbrev failure (c : EngineError) : Halt StoreError := .failure (.backend (.engine c))

/-- In a memory map, a call writes what it does without the map, if there is room for what its operations put. -/
theorem run_mapped (m : MappedEnvironment) (c : WriteCall) :
    c.run m = c.run m.environment >>= fun e => liftM (m.store c.steps e) := by
  cases c with
  | insertBlock height hash bytes =>
    change liftM (Store.insertBlock m.environment height hash bytes >>= _) = liftM _ >>= _
    cases Store.insertBlock m.environment height hash bytes <;> rfl
  | insertTransaction hash bytes =>
    change liftM (Store.insertTransaction m.environment hash bytes >>= _) = liftM _ >>= _
    cases Store.insertTransaction m.environment hash bytes <;> rfl
  | insertOutput id location => rfl
  | writeBlock w => rfl

/-- A call that succeeds there does so without the map. -/
theorem run_environment {m m' : MappedEnvironment} {c : WriteCall} (h : c.run m = .ok m') :
    c.run m.environment = .ok m'.environment := by
  rw [run_mapped] at h
  obtain ⟨e, he, hstore⟩ := bind_eq_ok_iff.mp h
  obtain ⟨pages, -, heq⟩ := bind_eq_ok_iff.mp (mapError_eq_ok_iff.mp (monadLift_eq_ok_iff.mp hstore))
  cases heq
  exact he

end WriteCall

namespace Environment

/-- Attempts a call that writes to an environment, call by call of an engine that refuses some of them. -/
def single (e : Environment) (refuses : Refusals) (c : WriteCall) : Except (Halt StoreError) Unit × Environment :=
  let ended := e.attempt refuses c.staging true
  (Halt.within TableError.toStoreError ended.1, ended.2)

/-- A call under an engine that may refuse does what it does on the tables, unless the engine refuses. -/
theorem single_comes (e : Environment) (refuses : Refusals) (c : WriteCall) :
    Comes e refuses WriteCall.failure ((c.run e).map ((), ·)) (e.single refuses c) := by
  rw [WriteCall.run_eq_runWrite, single]
  have hcomes := attempt_comes c.does_staging e refuses true
  generalize e.attempt refuses c.staging true = ended at hcomes ⊢
  cases hcomes with
  | refused n cause h => exact .refused n cause h
  | settled =>
    generalize e.runWrite (fun t => (c.runOn t).map ((), ·)) true = outcome
    cases outcome <;> exact .settled

/-- A write that fails leaves the environment as it was, whether the engine refused it or not. -/
theorem Comes.eq_of_error {α ε : Type} {e e' : Environment} {refuses : Refusals} {wording : EngineError → ε}
    {outcome : Except ε (α × Environment)} {cause : ε} (h : Comes e refuses wording outcome (.error cause, e')) :
    e' = e := by
  generalize hended : ((.error cause, e') : Except ε α × Environment) = ended at h
  cases h with
  | refused n c h =>
    cases hended
    rfl
  | settled =>
    cases outcome <;> cases hended
    rfl

end Environment

namespace MappedEnvironment

/-- A batch for whose entries a memory map has room does what it does without the map. -/
theorem runBatch_environment {m m' : MappedEnvironment} {steps : List BatchStep} {committing : Bool}
    {answers : List (Option UInt64)} (h : m.runBatch steps committing = .ok (answers, m')) :
    m.environment.runBatch steps committing = .ok (answers, m'.environment) := by
  obtain ⟨⟨found, e⟩, hrun, hbody⟩ := bind_eq_ok_iff.mp h
  obtain ⟨kept, hkeep, heq⟩ := bind_eq_ok_iff.mp hbody
  obtain ⟨pages, -, hkept⟩ := bind_eq_ok_iff.mp (monadLift_eq_ok_iff.mp hkeep)
  cases hkept
  cases heq
  rw [hrun]
  cases committing with
  | true => rfl
  | false =>
    obtain ⟨-, tables, -, he⟩ := Environment.runBatch_eq_ok_iff.mp hrun
    rw [← he]
    rfl

/-- A batch in a memory map is all or nothing, too. -/
theorem allOrNothing_runBatch (m : MappedEnvironment) (steps : List BatchStep) (committing : Bool) :
    m.environment.AllOrNothing steps committing
      (Prod.map id environment (settle m (m.runBatch steps committing))) := by
  cases h : m.runBatch steps committing with
  | error cause => exact .failed committing cause
  | ok r =>
    have hall := m.environment.allOrNothing_runBatch steps committing
    rw [runBatch_environment h] at hall
    exact hall

end MappedEnvironment

/-- An engine that refuses no call. -/
def Refusals.never : Refusals := fun _ => none

/-- Writes to a ledger directory are all or nothing, whatever it holds, and whichever calls the engine refuses. A batch
that fails or is dropped changes no table, and one that is committed answers and writes what its operations do one by
one. A single call that fails changes no table. All of them do what they do on the tables, unless the engine refuses a
call. -/
theorem batch_allOrNothing :
    (∀ (e : Environment) (refuses : Refusals) (steps : List BatchStep) (committing : Bool),
      e.AllOrNothing steps committing (e.batch refuses steps committing) ∧
        e.Comes refuses Environment.batchFailure (e.runBatch steps committing) (e.batch refuses steps committing)) ∧
    (∀ (e : Environment) (refuses : Refusals) (c : WriteCall),
      (∀ cause e', e.single refuses c = (.error cause, e') → e' = e) ∧
        e.Comes refuses WriteCall.failure ((c.run e).map ((), ·)) (e.single refuses c)) ∧
    ∀ m : MappedEnvironment,
      (∀ (steps : List BatchStep) (committing : Bool), m.environment.AllOrNothing steps committing
        (Prod.map id MappedEnvironment.environment (settle m (m.runBatch steps committing)))) ∧
      ∀ (c : WriteCall) (m' : MappedEnvironment), c.run m = .ok m' → c.run m.environment = .ok m'.environment :=
  ⟨fun e refuses steps committing =>
      ⟨e.allOrNothing_batch refuses steps committing, e.batch_comes refuses steps committing⟩,
    fun e refuses c =>
      ⟨fun _ _ h => Environment.Comes.eq_of_error (h ▸ e.single_comes refuses c), e.single_comes refuses c⟩,
    fun m => ⟨m.allOrNothing_runBatch, fun _ _ => WriteCall.run_environment⟩⟩

/-- A ledger directory with a count of three bytes. -/
def damagedEnvironment : Environment where
  tables := { outputCounts := Std.ExtTreeMap.ofList [(Tables.numberKey 7, ([1, 2, 3] : Bytes))] }

/-- The location of an output under a key of zeros. -/
def zeroLocation : OutputLocation := ⟨0, .zero⟩

/-- Storing an output of the amount puts its location before the count fails, and yet nothing is changed. -/
theorem batch_allOrNothing_damaged :
    damagedEnvironment.single Refusals.never (.insertOutput ⟨7, 0⟩ zeroLocation) =
      (.error (.failure (.undecodable .outputCount)), damagedEnvironment) := by
  have hfails : (damagedEnvironment.single Refusals.never (.insertOutput ⟨7, 0⟩ zeroLocation)).1 =
      .error (.failure (.undecodable .outputCount)) := by
    decide +kernel
  exact Prod.ext hfails ((batch_allOrNothing.2.1 damagedEnvironment _ _).1 _ _ (Prod.ext hfails rfl))

end RingDepth

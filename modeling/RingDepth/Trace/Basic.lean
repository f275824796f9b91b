import RingDepth.Ledger.Reader

/-!
# Traces

What a trace is asked for, how it may fail, and how its work is counted.
-/

namespace RingDepth

/-- What to do when several transactions of a block own an output with the same key. -/
inductive OwnerPolicy where
  /-- Take the first, the reward before the others. -/
  | firstMatch
  /-- Look at all of them, and fail if two differ. -/
  | rejectAmbiguous
deriving DecidableEq, Repr

/-- The name of a policy in settings. -/
def OwnerPolicy.name : OwnerPolicy → String
  | firstMatch => "first_match"
  | rejectAmbiguous => "reject_ambiguous"

/-- The policy with a name. -/
def OwnerPolicy.ofName? (s : String) : Option OwnerPolicy :=
  [firstMatch, rejectAmbiguous].find? fun p => p.name == s

/-- The settings of a trace. Whether traces may run side by side changes no result. -/
structure TraceConfig where
  includeReward : Bool := false
  ownerPolicy : OwnerPolicy := .firstMatch
  maxDepth : Option UInt64 := none
  parallel : Bool := false
deriving DecidableEq, Repr

/-- What makes a transaction unfit for a trace. -/
inductive TransactionDefect where
  | codec (e : CodecError)
  | offsets (e : OffsetsError)
deriving DecidableEq, Repr

/-- The defect in words. -/
def TransactionDefect.message : TransactionDefect → String
  | codec e => e.message
  | offsets e => e.message

/-- Why a trace failed. -/
inductive TraceError where
  | missingTransaction (hash : TxHash)
  | missingOutput (id : OutputId)
  | missingBlock (height : UInt64)
  | malformedBlock (height : UInt64) (reason : CodecError)
  | malformedTransaction (hash : TxHash) (reason : TransactionDefect)
  | ownerNotFound (id : OutputId) (height : UInt64)
  | ambiguousOwner (id : OutputId) (height : UInt64) (first second : TxHash)
  | unsupportedInput (hash : TxHash) (kind : LegacyInput)
  /-- All transactions that can be reached were looked at, and none mints. -/
  | exhausted (start : TxHash) (depth : Nat)
  | depthLimit (start : TxHash) (limit : UInt64)
  | nothingToTrace (height : UInt64)
  | store (e : StoreError)
deriving DecidableEq

/-- The text of the error. -/
def TraceError.message : TraceError → String
  | missingTransaction hash => s!"transaction {hash} not found"
  | missingOutput id => s!"output {id.index} of amount {id.amount} not found"
  | missingBlock height => s!"block at height {height} not found"
  | malformedBlock height reason => s!"block at height {height} is malformed: {reason.message}"
  | malformedTransaction hash reason => s!"transaction {hash} is malformed: {reason.message}"
  | ownerNotFound id height =>
    s!"no transaction in block {height} owns output {id.index} of amount {id.amount}"
  | ambiguousOwner id height first second =>
    s!"output {id.index} of amount {id.amount} in block {height} is owned by both " ++
      s!"{first} and {second}"
  | unsupportedInput hash kind =>
    s!"transaction {hash} has an input of unsupported type {kind.name}"
  | exhausted start depth =>
    s!"trace of {start} ran out of transactions at depth {depth} without reaching a block reward"
  | depthLimit start limit => s!"trace of {start} exceeded the depth limit of {limit}"
  | nothingToTrace height => s!"block {height} has no transactions to trace"
  | store e => s!"storage error: {e.message}"

/-- The work done by a part of a trace: the transactions fetched, the outputs resolved and the blocks scanned.
-/
structure Work where
  fetched : Nat := 0
  resolved : Nat := 0
  scanned : Nat := 0
deriving DecidableEq, Repr

namespace Work

instance : Add Work :=
  ⟨fun v w => ⟨v.fetched + w.fetched, v.resolved + w.resolved, v.scanned + w.scanned⟩⟩

instance : Zero Work := ⟨{}⟩

/-- Work is determined by its three counts. -/
@[ext] theorem ext {v w : Work} (hf : v.fetched = w.fetched) (hr : v.resolved = w.resolved)
    (hs : v.scanned = w.scanned) : v = w := by
  cases v
  cases w
  simp_all

/-- The fetched transactions of two parts add up. -/
@[simp] theorem fetched_add (v w : Work) : (v + w).fetched = v.fetched + w.fetched := rfl

/-- The resolved outputs of two parts add up. -/
@[simp] theorem resolved_add (v w : Work) : (v + w).resolved = v.resolved + w.resolved := rfl

/-- The scanned blocks of two parts add up. -/
@[simp] theorem scanned_add (v w : Work) : (v + w).scanned = v.scanned + w.scanned := rfl

/-- No work fetches nothing. -/
@[simp] theorem fetched_zero : (0 : Work).fetched = 0 := rfl

/-- No work resolves nothing. -/
@[simp] theorem resolved_zero : (0 : Work).resolved = 0 := rfl

/-- No work scans nothing. -/
@[simp] theorem scanned_zero : (0 : Work).scanned = 0 := rfl

/-- No work in front changes nothing. -/
@[simp] theorem zero_add (w : Work) : 0 + w = w := by ext <;> simp

/-- No work behind changes nothing. -/
@[simp] theorem add_zero (w : Work) : w + 0 = w := by ext <;> simp

/-- Work may be added up from either end. -/
theorem add_assoc (u v w : Work) : u + v + w = u + (v + w) := by ext <;> simp [Nat.add_assoc]

end Work

/-- A part of a trace: its result and the work that it took, or the failure that ends the trace. -/
def Traced (α : Type) : Type := Except TraceError (α × Work)

namespace Traced

variable {α β : Type}

/-- A result that took no work. -/
def pure (a : α) : Traced α := .ok (a, 0)

/-- Does one part after another, and adds their work. -/
def bind (x : Traced α) (f : α → Traced β) : Traced β :=
  match x with
  | .error e => .error e
  | .ok (a, v) =>
    match f a with
    | .error e => .error e
    | .ok (b, w) => .ok (b, v + w)

instance : Monad Traced where
  pure := pure
  bind := bind

instance : MonadExcept TraceError Traced where
  throw e := .error e
  tryCatch x handle :=
    match x with
    | .error e => handle e
    | .ok r => .ok r

/-- A part behind a result that took no work is done alone. -/
theorem pure_bind (a : α) (f : α → Traced β) : bind (pure a) f = f a := by
  rcases h : f a with e | ⟨b, w⟩ <;> simp [pure, bind, h] <;> rfl

/-- Parts may be put together from either end. -/
theorem bind_assoc {γ : Type} (x : Traced α) (f : α → Traced β) (g : β → Traced γ) :
    bind (bind x f) g = bind x fun a => bind (f a) g := by
  rcases x with e | ⟨a, v⟩
  · rfl
  rcases hf : f a with e | ⟨b, w⟩
  · simp [bind, hf]
    rfl
  rcases hg : g b with e | ⟨c, u⟩
  · simp [bind, hf, hg]
    rfl
  · simp [bind, hf, hg, Work.add_assoc]
    rfl

instance : LawfulMonad Traced :=
  LawfulMonad.mk' Traced
    (fun x => by
      rcases x with e | ⟨a, w⟩
      · rfl
      · exact congrArg (fun u => Except.ok (a, u)) (Work.add_zero w))
    pure_bind bind_assoc

/-- Counts work. -/
def spend (w : Work) : Traced Unit := .ok ((), w)

/-- The result without the work. -/
def result (x : Traced α) : Except TraceError α := Except.map Prod.fst x

end Traced

end RingDepth

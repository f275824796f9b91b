import RingDepth.Proofs.Store.Alike

/-!
# Calls of a store

A program that uses a store writes to it and looks things up, and it appends blocks, traces, counts spent
outputs and exports over it. Whatever sequence of these calls is made, an empty store in memory and an empty
ledger directory answer it alike, call by call. Nothing is asked of the calls: blocks may be stored at any
height, outputs under any number, and entries may be overwritten.
-/

namespace RingDepth

/-- A call of a store, or of what is done over one. -/
inductive StoreCall where
  | insertBlock (height : UInt64) (hash : BlockHash) (bytes : Bytes)
  | insertTransaction (hash : TxHash) (bytes : Bytes)
  | insertOutput (id : OutputId) (location : OutputLocation)
  | writeBlock (w : BlockWrite)
  | block (hash : BlockHash)
  | blockHash (height : UInt64)
  | blockAt (height : UInt64)
  | blockCount
  | transaction (hash : TxHash)
  | hasTransaction (hash : TxHash)
  | output (id : OutputId)
  | outputCount (amount : UInt64)
  | append (checkpoints : Checkpoints) (b : Block) (ts : List Transaction)
  | trace (c : TraceConfig) (start : TxHash)
  | scanSpent
  | exportTo (t : FileTree) (path : String) (start stop : UInt64)

/-- The answer to a call. -/
inductive StoreAnswer where
  | written (result : Except (Halt StoreError) Unit)
  | bytes (result : Except StoreError Bytes)
  | hash (result : Except StoreError BlockHash)
  | number (result : Except StoreError UInt64)
  | present (result : Except StoreError Bool)
  | location (result : Except StoreError OutputLocation)
  | appended (result : Except (Halt LedgerError) BlockHash)
  | traced (result : Except TraceError TraceOutcome)
  | spent (result : Except (Halt SpentError) SpentCounts)
  | exported (result : FileTree × Except (Halt BootstrapError) ExportSummary)

/-- Whether a counter would have passed its greatest value, which ends the program. -/
def StoreAnswer.halts : StoreAnswer → Bool
  | written (.error .overflow) => true
  | appended (.error .overflow) => true
  | spent (.error .overflow) => true
  | exported (_, .error .overflow) => true
  | _ => false

namespace Store

variable {σ : Type} [Store σ]

/-- The answer to a write and the store after it. A write that fails leaves the store as it was. -/
def written (s : σ) : Except (Halt StoreError) σ → StoreAnswer × σ
  | .ok s' => (.written (.ok ()), s')
  | .error e => (.written (.error e), s)

/-- Does a call. Gives the answer and the store after it. -/
def call (s : σ) : StoreCall → StoreAnswer × σ
  | .insertBlock height hash bytes => written s (liftM (Store.insertBlock s height hash bytes))
  | .insertTransaction hash bytes => written s (liftM (Store.insertTransaction s hash bytes))
  | .insertOutput id location => written s (Store.insertOutput s id location)
  | .writeBlock w => written s (Store.writeBlock s w)
  | .block hash => (.bytes (Store.block s hash), s)
  | .blockHash height => (.hash (Store.blockHash s height), s)
  | .blockAt height => (.bytes (Store.blockAt s height), s)
  | .blockCount => (.number (Store.blockCount s), s)
  | .transaction hash => (.bytes (Store.transaction s hash), s)
  | .hasTransaction hash => (.present (Store.hasTransaction s hash), s)
  | .output id => (.location (Store.output s id), s)
  | .outputCount amount => (.number (Store.outputCount s amount), s)
  | .append checkpoints b ts =>
    match Ledger.append { store := s, checkpoints } b ts with
    | .ok (hash, l) => (.appended (.ok hash), l.store)
    | .error e => (.appended (.error e), s)
  | .trace c start => (.traced (RingDepth.trace (Reader.ofStore s) c start), s)
  | .scanSpent => (.spent (SpentCounts.scan (Reader.ofStore s)), s)
  | .exportTo t path start stop => (.exported (Export.toPath s t path start stop), s)

/-- The answers to a sequence of calls, up to the first that ends the program. -/
def answersTo (s : σ) : List StoreCall → List StoreAnswer
  | [] => []
  | c :: rest =>
    let (answer, s') := call s c
    answer :: if answer.halts then [] else answersTo s' rest

end Store

namespace Memory

/-- Two calls give the same answer and come to stores that are alike. -/
inductive SameCall : StoreAnswer × Memory → StoreAnswer × Environment → Prop
  | mk (answer : StoreAnswer) {s : Memory} {t : Tables} (h : Alike s t) :
    SameCall (answer, s) (answer, { tables := t })

namespace Alike

variable {s : Memory} {t : Tables}

/-- Writes with the same outcome are the same call. -/
theorem written (h : Alike s t) {x : Except (Halt StoreError) Memory}
    {f : Tables → Except (Halt TableError) Tables} (hsame : SameOutcome x (f t)) :
    SameCall (Store.written s x) (Store.written ({ tables := t } : Environment)
      (Halt.within TableError.toStoreError (Environment.transact { tables := t } f))) := by
  have htransact : Environment.transact { tables := t } f =
      f t >>= fun tables => .ok { tables } := rfl
  rw [htransact]
  generalize f t = y at hsame ⊢
  cases hsame with
  | ok hnext => exact .mk _ hnext
  | overflow => exact .mk _ h

/-- An append is the same call, as its checks find the same. -/
theorem append (h : Alike s t) (checkpoints : Checkpoints) (b : Block) (ts : List Transaction) :
    SameCall (Store.call s (.append checkpoints b ts))
      (Store.call ({ tables := t } : Environment) (.append checkpoints b ts)) := by
  rw [Store.call, Store.call, Ledger.append, Ledger.append, h.agree.checkPlace, h.agree.checkTransactions]
  cases Ledger.checkPlace { store := s, checkpoints } b with
  | error e => exact .mk _ h
  | ok _ =>
    cases Ledger.checkTransactions { store := s, checkpoints } b ts with
    | error e => exact .mk _ h
    | ok _ =>
      have hwrite : Store.writeBlock ({ tables := t } : Environment) (b.toWrite ts) =
          Halt.within TableError.toStoreError
            (t.writeBlock (b.toWrite ts) >>= fun tables => .ok { tables }) := rfl
      have hsame := h.writeBlock (b.toWrite ts)
      rw [hwrite]
      change SameOutcome (Store.writeBlock s (b.toWrite ts)) _ at hsame
      generalize Store.writeBlock s (b.toWrite ts) = x at hsame ⊢
      generalize t.writeBlock (b.toWrite ts) = y at hsame ⊢
      cases hsame with
      | ok hnext => exact .mk _ hnext
      | overflow => exact .mk _ h

/-- Every call is the same over stores that are alike. -/
theorem call (h : Alike s t) (c : StoreCall) :
    SameCall (Store.call s c) (Store.call ({ tables := t } : Environment) c) := by
  have hagree := h.agree
  cases c with
  | insertBlock height hash bytes => exact .mk _ (h.insertBlock height hash bytes)
  | insertTransaction hash bytes => exact .mk _ (h.insertTransaction hash bytes)
  | insertOutput id location => exact h.written (h.insertOutput id location)
  | writeBlock w => exact h.written (h.writeBlock w)
  | block hash =>
    rw [Store.call, Store.call, hagree.block]
    exact .mk _ h
  | blockHash height =>
    rw [Store.call, Store.call, hagree.blockHash]
    exact .mk _ h
  | blockAt height =>
    rw [Store.call, Store.call, hagree.blockAt]
    exact .mk _ h
  | blockCount =>
    rw [Store.call, Store.call, hagree.blockCount]
    exact .mk _ h
  | transaction hash =>
    rw [Store.call, Store.call, hagree.transaction]
    exact .mk _ h
  | hasTransaction hash =>
    rw [Store.call, Store.call, hagree.hasTransaction]
    exact .mk _ h
  | output id =>
    rw [Store.call, Store.call, hagree.output]
    exact .mk _ h
  | outputCount amount =>
    rw [Store.call, Store.call, hagree.outputCount]
    exact .mk _ h
  | append checkpoints b ts => exact h.append checkpoints b ts
  | trace c start =>
    rw [Store.call, Store.call, hagree.ofStore_eq]
    exact .mk _ h
  | scanSpent =>
    rw [Store.call, Store.call, hagree.ofStore_eq]
    exact .mk _ h
  | exportTo files path start stop =>
    rw [Store.call, Store.call, hagree.toPath]
    exact .mk _ h

/-- Stores that are alike give the same answers to every sequence of calls. -/
theorem answers (h : Alike s t) (calls : List StoreCall) :
    Store.answersTo ({ tables := t } : Environment) calls = Store.answersTo s calls := by
  induction calls generalizing s t with
  | nil => rfl
  | cons c rest ih =>
    rw [Store.answersTo, Store.answersTo]
    have hcall := h.call c
    generalize Store.call s c = x at hcall ⊢
    generalize Store.call ({ tables := t } : Environment) c = y at hcall ⊢
    obtain ⟨answer, hnext⟩ := hcall
    dsimp only
    rw [ih hnext]

end Alike

end Memory

/-- An empty ledger directory that may be written gives the same answers to every sequence of calls as an
empty store in memory, whatever bookkeeping values the two have. -/
theorem answers_environment_eq_memory (metadata : Std.ExtTreeMap String Bytes) (metadata' : Table)
    (calls : List StoreCall) :
    Store.answersTo ({ tables := { metadata := metadata' } } : Environment) calls =
      Store.answersTo ({ metadata } : Memory) calls :=
  (Memory.Alike.empty metadata metadata').answers calls

end RingDepth

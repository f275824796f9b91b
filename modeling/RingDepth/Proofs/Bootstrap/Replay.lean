import RingDepth.Proofs.Bootstrap.Export
import RingDepth.Proofs.Ledger.Growth

/-!
# What an import does to a ledger

An import takes the packages of a file one after the other. A package whose block is below the height that the
ledger has by then is skipped, and its transactions are not looked at. Every other one is appended, or ends
the import, and then the ledger is the one before it. So an import replays the packages before the first that
fails, or all that were read.

The import counts the height itself. It stays that of the ledger, since a block that is appended has the next
height. With this, every package of a file that was imported well is below the height that the ledger has
then, and importing the file again skips them all.
-/

namespace RingDepth

section

variable {σ : Type} [Store σ] [Store.Lawful σ]

/-- Whether the store of a ledger holds what a valid chain adds, under whatever registry the chain grew. -/
structure Ledger.Took (l : Ledger σ) (chain : List Extension) : Prop where
  valid : ValidChain .empty chain
  represents : Store.Represents l.store (.ofChain chain)

namespace Ledger.Took

variable {l l' : Ledger σ} {chain : List Extension}

/-- The height of the ledger is the number of blocks. -/
theorem height_eq_ok_iff (h : l.Took chain) {height : UInt64} :
    l.height = .ok height ↔ height.toNat = chain.length :=
  mapError_eq_ok_iff.trans (Ledger.blockCount_eq_ok_iff (Store.answers h.represents))

/-- The blocks are counted. -/
theorem exists_height (h : l.Took chain) : ∃ height, l.height = .ok height := by
  obtain ⟨n, hn, -⟩ := (Store.answers h.represents).blockCount
  exact ⟨n, mapError_eq_ok_iff.mpr hn⟩

/-- A block that is appended follows the chain, and the ledger took it then. -/
theorem append (h : l.Took chain) {e : Extension} {hash : BlockHash}
    (happend : l.append e.block e.transactions = .ok (hash, l')) :
    e.Follows .empty chain ∧ l'.Took (chain ++ [e]) := by
  obtain ⟨-, hextends, s, hwrite, rfl⟩ := Ledger.append_eq_ok_iff.mp happend
  have hfollows := (Ledger.extends_iff_follows (l := l.under .empty) h.valid
    (Store.answers h.represents) e).mp hextends.unpinned
  exact ⟨hfollows, h.valid.snoc hfollows, Store.represents_concat h.represents hfollows hwrite⟩

/-- With one more block its height is the one above. -/
theorem height_above {e : Extension} (h' : l'.Took (chain ++ [e])) (h : l.Took chain) {height : UInt64}
    (hheight : l.height = .ok height) : l'.height = .ok (height + 1) := by
  rw [h.height_eq_ok_iff] at hheight
  obtain ⟨next, hnext⟩ := h'.exists_height
  rw [h'.height_eq_ok_iff, List.length_append, List.length_singleton] at hnext ⊢
  have hlt : next.toNat < UInt64.size := next.toNat_lt
  rw [Ledger.toNat_above (by omega), hheight]

end Ledger.Took

end

namespace Import

variable {σ : Type} [Store σ] {l l' : Ledger σ} {p : BlockPackage}

/-- Whether a package is skipped: its block is below the height of the ledger. -/
def Skips (l : Ledger σ) (p : BlockPackage) : Prop :=
  ∃ b height, blockOf p = .ok b ∧ l.height = .ok height ∧ b.height < height

/-- Whether a package is appended as some block with its transactions: the package is that of the block, which
is not below the height of the ledger, and the ledger takes the block with them. -/
structure Appends (l : Ledger σ) (p : BlockPackage) (e : Extension) (l' : Ledger σ) : Prop where
  block : blockOf p = .ok e.block
  notBelow : ∃ height, l.height = .ok height ∧ ¬e.block.height < height
  transactions : transactionsOf p = .ok e.transactions
  append : l.append e.block e.transactions = .ok (e.block.hash, l')

/-- Why a package is neither skipped nor appended. -/
inductive Fails (l : Ledger σ) (p : BlockPackage) : Halt BootstrapError → Prop
  | block {e : BootstrapError} (h : blockOf p = .error e) : Fails l p (.failure e)
  /-- The block would not be skipped, and a record stands for no transaction. -/
  | transactions {b : Block} {height : UInt64} {e : BootstrapError} (hblock : blockOf p = .ok b)
      (hheight : l.height = .ok height) (hnotBelow : ¬b.height < height)
      (h : transactionsOf p = .error e) : Fails l p (.failure e)
  | append {b : Block} {height : UInt64} {ts : List Transaction} {halt : Halt LedgerError}
      (hblock : blockOf p = .ok b) (hheight : l.height = .ok height) (hnotBelow : ¬b.height < height)
      (htransactions : transactionsOf p = .ok ts) (h : l.append b ts = .error halt) :
      Fails l p (halt.map BootstrapError.ledger)

/-- A package is skipped, or appended, or it fails. -/
theorem appendPackage_cases {height : UInt64} (hheight : l.height = .ok height) (p : BlockPackage) :
    (Skips l p ∧ appendPackage l height p = .ok none) ∨
    (∃ e l', Appends l p e l' ∧ appendPackage l height p = .ok (some l')) ∨
    ∃ halt, Fails l p halt ∧ appendPackage l height p = .error halt := by
  rw [appendPackage]
  cases hblock : blockOf p with
  | error e => exact .inr (.inr ⟨_, .block hblock, rfl⟩)
  | ok b =>
    by_cases hbelow : b.height < height
    · exact .inl ⟨⟨b, height, hblock, hheight, hbelow⟩, if_pos hbelow⟩
    · cases htransactions : transactionsOf p with
      | error e => exact .inr (.inr ⟨_, .transactions hblock hheight hbelow htransactions, if_neg hbelow⟩)
      | ok ts =>
        cases happend : l.append b ts with
        | error halt =>
          refine .inr (.inr ⟨_, .append hblock hheight hbelow htransactions happend, (if_neg hbelow).trans ?_⟩)
          change Halt.within BootstrapError.ledger (l.append b ts) >>= _ = _
          rw [happend]
          rfl
        | ok taken =>
          obtain ⟨hash, l'⟩ := taken
          obtain ⟨rfl, -⟩ := Ledger.append_eq_ok_iff.mp happend
          have happends : Appends l p ⟨b, ts⟩ l' := ⟨hblock, ⟨height, hheight, hbelow⟩, htransactions, happend⟩
          refine .inr (.inl ⟨⟨b, ts⟩, l', happends, (if_neg hbelow).trans ?_⟩)
          change Halt.within BootstrapError.ledger (l.append b ts) >>= _ = _
          rw [happend]
          rfl

/-- What becomes of a ledger while packages are taken one by one, with the blocks that are appended. -/
inductive Replays : Ledger σ → List BlockPackage → List Extension → Ledger σ → Prop
  | nil (l : Ledger σ) : Replays l [] [] l
  | skip {l l' : Ledger σ} {p : BlockPackage} {rest : List BlockPackage} {es : List Extension}
      (first : Skips l p) (others : Replays l rest es l') : Replays l (p :: rest) es l'
  | append {l next l' : Ledger σ} {p : BlockPackage} {rest : List BlockPackage} {e : Extension}
      {es : List Extension} (first : Appends l p e next) (others : Replays next rest es l') :
      Replays l (p :: rest) (e :: es) l'

/-- How an import into a ledger ends, given the file or why it could not be opened. -/
inductive Ends (l : Ledger σ) :
    Except BootstrapError BootstrapFile → Ledger σ → Except (Halt BootstrapError) ImportSummary → Prop
  /-- The file cannot be opened, and nothing is changed. -/
  | unopened {e : BootstrapError} : Ends l (.error e) l (.error (.failure e))
  /-- All packages were read, and are skipped or appended. -/
  | finished {f : BootstrapFile} {es : List Extension} {l' : Ledger σ} {skipped : ℕ}
      (hread : f.packages.failure = none) (hreplays : Replays l f.packages.items es l')
      (hskipped : es.length + skipped = f.packages.items.length) :
      Ends l (.ok f) l' (.ok { imported := es.length, skipped })
  /-- A package cannot be read, and those before it are skipped or appended. -/
  | unread {f : BootstrapFile} {es : List Extension} {l' : Ledger σ} {e : BootstrapError}
      (hread : f.packages.failure = some e) (hreplays : Replays l f.packages.items es l') :
      Ends l (.ok f) l' (.error (.failure e))
  /-- A package fails, and those before it are skipped or appended. -/
  | failed {f : BootstrapFile} {before after : List BlockPackage} {p : BlockPackage} {es : List Extension}
      {l' : Ledger σ} {halt : Halt BootstrapError} (hpackages : f.packages.items = before ++ p :: after)
      (hreplays : Replays l before es l') (hfails : Fails l' p halt) : Ends l (.ok f) l' (.error halt)

/-- An import that ends well read and replayed all packages of its file. -/
theorem Ends.exists_replays {f : BootstrapFile} {summary : ImportSummary}
    (h : Ends l (.ok f) l' (.ok summary)) :
    f.packages.failure = none ∧ ∃ es, Replays l f.packages.items es l' ∧ summary.imported = es.length ∧
      es.length + summary.skipped = f.packages.items.length := by
  generalize hresult : (.ok summary : Except (Halt BootstrapError) ImportSummary) = result at h
  cases h with
  | unread => cases hresult
  | failed => cases hresult
  | finished hread hreplays hskipped =>
    obtain rfl := Except.ok.inj hresult
    exact ⟨hread, _, hreplays, rfl, hskipped⟩

/-- Packages that are all below the height of a ledger are skipped. -/
theorem appendPackages_of_below {height : UInt64} {packages : List BlockPackage}
    (hbelow : ∀ p ∈ packages, ∃ b, blockOf p = .ok b ∧ b.height < height) (l : Ledger σ)
    (summary : ImportSummary) : appendPackages l height summary packages =
      (l, .ok { summary with skipped := summary.skipped + packages.length }) := by
  induction packages generalizing summary with
  | nil => rfl
  | cons p rest ih =>
    obtain ⟨⟨b, hblock, hlt⟩, hrest⟩ := List.forall_mem_cons.mp hbelow
    have hskipped : appendPackage l height p = .ok none := by
      rw [appendPackage, hblock]
      exact if_pos hlt
    rw [appendPackages, hskipped]
    dsimp only
    rw [ih hrest, List.length_cons, Nat.add_assoc, Nat.add_comm 1]

section

variable [Store.Lawful σ] {chain : List Extension} {packages : List BlockPackage} {es : List Extension}

/-- A ledger took the blocks that are appended, and is higher than all packages then. -/
theorem Replays.took (h : Replays l packages es l') (htook : l.Took chain) :
    l'.Took (chain ++ es) ∧
      ∀ p ∈ packages, ∃ b, blockOf p = .ok b ∧ b.height.toNat < (chain ++ es).length := by
  induction h generalizing chain with
  | nil l => exact ⟨(List.append_nil chain).symm ▸ htook, List.forall_mem_nil _⟩
  | @skip l l' p rest es first _ ih =>
    obtain ⟨htook', hbelow⟩ := ih htook
    obtain ⟨b, height, hblock, hheight, hlt⟩ := first
    refine ⟨htook', List.forall_mem_cons.mpr ⟨⟨b, hblock, ?_⟩, hbelow⟩⟩
    rw [htook.height_eq_ok_iff] at hheight
    rw [UInt64.lt_iff_toNat_lt, hheight] at hlt
    rw [List.length_append]
    omega
  | @append l next l' p rest e es first _ ih =>
    obtain ⟨hfollows, hnext⟩ := htook.append first.append
    obtain ⟨htook', hbelow⟩ := ih hnext
    rw [List.append_assoc, List.singleton_append] at htook' hbelow
    refine ⟨htook', List.forall_mem_cons.mpr ⟨⟨e.block, first.block, ?_⟩, hbelow⟩⟩
    rw [hfollows.height, List.length_append, List.length_cons]
    omega

/-- Packages are taken one after the other, until one fails. -/
theorem appendPackages_cases (htook : l.Took chain) {height : UInt64} (hheight : l.height = .ok height)
    (summary : ImportSummary) (packages : List BlockPackage) :
    (∃ es l' skipped, Replays l packages es l' ∧ es.length + skipped = packages.length ∧
      appendPackages l height summary packages = (l', .ok
        { imported := summary.imported + es.length, skipped := summary.skipped + skipped })) ∨
    ∃ before p after es l' halt, packages = before ++ p :: after ∧ Replays l before es l' ∧
      Fails l' p halt ∧ appendPackages l height summary packages = (l', .error halt) := by
  induction packages generalizing l height chain summary with
  | nil => exact .inl ⟨[], l, 0, .nil l, rfl, rfl⟩
  | cons p rest ih =>
    rw [appendPackages]
    obtain ⟨hskips, hresult⟩ | ⟨e, next, happends, hresult⟩ | ⟨halt, hfails, hresult⟩ :=
      appendPackage_cases hheight p
    · rw [hresult]
      dsimp only
      obtain ⟨es, l', skipped, hreplays, hlength, hrest⟩ |
          ⟨before, q, after, es, l', halt, rfl, hreplays, hfails, hrest⟩ :=
        ih htook hheight { summary with skipped := summary.skipped + 1 }
      · refine .inl ⟨es, l', skipped + 1, .skip hskips hreplays, ?_, ?_⟩
        · rw [List.length_cons, ← hlength, Nat.add_assoc]
        · rw [hrest, Nat.add_assoc, Nat.add_comm 1]
      · exact .inr ⟨p :: before, q, after, es, l', halt, rfl, .skip hskips hreplays, hfails, hrest⟩
    · obtain ⟨hfollows, hnext⟩ := htook.append happends.append
      have hheight' := hnext.height_above htook hheight
      rw [hresult]
      dsimp only
      obtain ⟨es, l', skipped, hreplays, hlength, hrest⟩ |
          ⟨before, q, after, es, l', halt, rfl, hreplays, hfails, hrest⟩ :=
        ih hnext hheight' { summary with imported := summary.imported + 1 }
      · refine .inl ⟨e :: es, l', skipped, .append happends hreplays, ?_, ?_⟩
        · rw [List.length_cons, List.length_cons, ← hlength, Nat.add_right_comm]
        · rw [hrest, List.length_cons, Nat.add_assoc, Nat.add_comm 1]
      · exact .inr ⟨p :: before, q, after, e :: es, l', halt, rfl, .append happends hreplays, hfails, hrest⟩
    · rw [hresult]
      exact .inr ⟨[], p, rest, [], l, halt, rfl, .nil l, hfails, rfl⟩

/-- An import of a file into a ledger that took a chain ends in one of the ways. -/
theorem ends_ofPath (htook : l.Took chain) (t : FileTree) (path : String) :
    Ends l (BootstrapFile.readAt t path) (ofPath l t path).1 (ofPath l t path).2 := by
  obtain ⟨height, hheight⟩ := htook.exists_height
  rw [BootstrapFile.readAt, ofPath]
  cases hbytes : BootstrapFile.bytesAt t path with
  | error e => exact .unopened
  | ok bytes =>
    change Ends l (BootstrapFile.read bytes) (run l bytes).1 (run l bytes).2
    rw [run]
    cases hread : BootstrapFile.read bytes with
    | error e => exact .unopened
    | ok f =>
      dsimp only
      rw [hheight]
      dsimp only
      obtain ⟨es, l', skipped, hreplays, hlength, hresult⟩ |
          ⟨before, p, after, es, l', halt, hpackages, hreplays, hfails, hresult⟩ :=
        appendPackages_cases htook hheight {} f.packages.items
      · rw [hresult]
        cases hfailure : f.packages.failure with
        | none =>
          dsimp only
          rw [Nat.zero_add, Nat.zero_add]
          exact .finished hfailure hreplays hlength
        | some e => exact .unread hfailure hreplays
      · rw [hresult]
        exact .failed hpackages hreplays hfails

/-- An import that ended well changes nothing if it is done again. -/
theorem ofPath_again (htook : l'.Took chain) {t : FileTree} {path : String} {f : BootstrapFile}
    (hfound : BootstrapFile.readAt t path = .ok f) (hread : f.packages.failure = none)
    (hbelow : ∀ p ∈ f.packages.items, ∃ b, blockOf p = .ok b ∧ b.height.toNat < chain.length) :
    ofPath l' t path = (l', .ok { imported := 0, skipped := f.packages.items.length }) := by
  obtain ⟨height, hheight⟩ := htook.exists_height
  obtain ⟨bytes, hbytes, hread'⟩ := bind_eq_ok_iff.mp hfound
  have hskips : ∀ p ∈ f.packages.items, ∃ b, blockOf p = .ok b ∧ b.height < height := by
    intro p hp
    obtain ⟨b, hblock, hlt⟩ := hbelow p hp
    refine ⟨b, hblock, ?_⟩
    rwa [UInt64.lt_iff_toNat_lt, htook.height_eq_ok_iff.mp hheight]
  rw [ofPath, hbytes]
  dsimp only
  rw [run, hread']
  dsimp only
  rw [hheight]
  dsimp only
  rw [appendPackages_of_below hskips, hread, Nat.zero_add]

/-- What an import did that ended well, and that it would change nothing if it were done again. Every package
of the file is counted, and the number of blocks grew by the packages that were appended. -/
structure Completes (l l' : Ledger σ) (t : FileTree) (path : String) (f : BootstrapFile)
    (summary : ImportSummary) : Prop where
  counted : summary.imported + summary.skipped = f.packages.items.length
  grown : ∃ before after, Store.blockCount l.store = .ok before ∧ Store.blockCount l'.store = .ok after ∧
    after.toNat = before.toNat + summary.imported
  again : ofPath l' t path = (l', .ok { imported := 0, skipped := f.packages.items.length })

/-- An import that ends well is complete. -/
theorem Ends.completes {t : FileTree} {path : String} {f : BootstrapFile} {summary : ImportSummary}
    (h : Ends l (.ok f) l' (.ok summary)) (htook : l.Took chain)
    (hfound : BootstrapFile.readAt t path = .ok f) : Completes l l' t path f summary := by
  obtain ⟨hread, es, hreplays, himported, hskipped⟩ := h.exists_replays
  obtain ⟨htook', hbelow⟩ := hreplays.took htook
  obtain ⟨before, hbefore⟩ := htook.exists_height
  obtain ⟨after, hafter⟩ := htook'.exists_height
  refine ⟨himported ▸ hskipped,
    ⟨before, after, mapError_eq_ok_iff.mp hbefore, mapError_eq_ok_iff.mp hafter, ?_⟩,
    ofPath_again htook' hfound hread hbelow⟩
  rw [htook'.height_eq_ok_iff.mp hafter, htook.height_eq_ok_iff.mp hbefore, List.length_append, himported]

end

end Import

/-- After every run from an empty store, and under every registry, the import of a file appends in the order
of the file exactly the packages that are not below the height by then, up to the first that fails, and
changes nothing else. If it ends well, then the numbers of its summary are exact, and importing the file again
changes nothing. -/
theorem replayed_run (checkpoints : Checkpoints) (calls : List LedgerCall) :
    InEveryRun checkpoints calls fun h =>
      ∀ (registry : Checkpoints) (t : FileTree) (path : String) (l' : Ledger _)
        (result : Except (Halt BootstrapError) ImportSummary),
        Import.ofPath (h.ledger.under registry) t path = (l', result) →
          Import.Ends (h.ledger.under registry) (BootstrapFile.readAt t path) l' result ∧
            ∀ f summary, BootstrapFile.readAt t path = .ok f → result = .ok summary →
              Import.Completes (h.ledger.under registry) l' t path f summary := by
  apply inEveryRun_of_faithful
  intro σ _ _ h hf _ _ registry t path l' result hresult
  have htook : (h.ledger.under registry).Took h.chain := ⟨hf.valid.unpinned, hf.represents⟩
  have hends := Import.ends_ofPath htook t path
  rw [hresult] at hends
  refine ⟨hends, fun f summary hfound hsummary => ?_⟩
  subst hsummary
  rw [hfound] at hends
  exact hends.completes htook hfound

/-- A file with the packages of two blocks. -/
def twoBlocksFile : FileTree :=
  BootstrapWriter.treeWith ((BootstrapWriter.create 0 1).file ++ bodyOf [[lower.package, upper.package]])

/-- A ledger that took the first of them, under the registry that pins the second. -/
def lowerLedger : Ledger Memory := (Ledger.run { store := {} } [.append lower]).ledger.under upperPinned

/-- The import of the file skips the first package and appends the second one. -/
theorem ofPath_twoBlocksFile : ∃ l',
    Import.ofPath lowerLedger twoBlocksFile "chain.dat" = (l', .ok { imported := 1, skipped := 1 }) := by
  have hsummary : (Import.ofPath lowerLedger twoBlocksFile "chain.dat").2 =
      .ok { imported := 1, skipped := 1 } := by decide +kernel
  exact ⟨_, Prod.ext rfl hsummary⟩

/-- It is complete, so that another import would skip both. -/
theorem replayed_twoBlocks :
    ∃ l' f, Import.ofPath lowerLedger twoBlocksFile "chain.dat" = (l', .ok { imported := 1, skipped := 1 }) ∧
      BootstrapFile.readAt twoBlocksFile "chain.dat" = .ok f ∧
      Import.Completes lowerLedger l' twoBlocksFile "chain.dat" f { imported := 1, skipped := 1 } := by
  obtain ⟨l', hresult⟩ := ofPath_twoBlocksFile
  have hopened : (BootstrapFile.readAt twoBlocksFile "chain.dat").isOk = true := by decide +kernel
  cases hfound : BootstrapFile.readAt twoBlocksFile "chain.dat" with
  | error e => simp [hfound, Except.isOk, Except.toBool] at hopened
  | ok f =>
    obtain ⟨-, hcompletes⟩ := (replayed_run {} [.append lower]).memory ∅ false upperPinned twoBlocksFile
      "chain.dat" _ _ hresult
    exact ⟨l', f, hresult, rfl, hcompletes f _ hfound rfl⟩

end RingDepth

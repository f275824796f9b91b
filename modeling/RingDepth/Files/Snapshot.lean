import RingDepth.Files.Tree
import RingDepth.Store.Mapped

/-!
# Written form of a ledger file

A ledger file is written as a marker, and the databases that have been made with their entries in the
order of their keys. The pages are not part of it: they are those of a file to which all entries are
written at once.
-/

namespace RingDepth

/-- The name of a database, and its entries. -/
abbrev DatabaseRecord := Bytes × List (Bytes × Bytes)

namespace LedgerFile

/-- The bytes with which the written form starts. -/
def marker : Bytes := Bytes.ofText "ledger tables 1\n"

/-- The databases that have been made, with their entries. -/
def toRecords (f : LedgerFile) : List DatabaseRecord :=
  f.present.map fun database => (Bytes.ofText database.name, (f.tables.table database).toList)

/-- The written form of a ledger file. -/
def toBytes (f : LedgerFile) : Bytes := marker ++ Codec.encode f.toRecords

/-- The database with a written name. -/
def databaseNamed? (name : Bytes) : Option Database :=
  Database.all.find? fun database => Bytes.ofText database.name = name

/-- Adds a database with its entries. -/
def addRecord (f : LedgerFile) (record : DatabaseRecord) : Option LedgerFile :=
  (databaseNamed? record.1).map fun database =>
    { tables := f.tables.withTable database (.ofList record.2)
      present := f.present ++ [database] }

/-- The entries of all databases that have been made. -/
def puts (f : LedgerFile) : List TablePut :=
  f.present.flatMap fun database =>
    (f.tables.table database).toList.map fun (key, value) => ⟨database, key, value.length⟩

/-- Divides the file into pages, of which there are at most `limit`. -/
def paginate? (f : LedgerFile) (limit : Nat) : Option LedgerFile := do
  let named ← (f.pages.transact limit (f.present.forM Spending.addName)).toOption
  let pages ← (named.putAll (limit * PageSize.bytes) f.puts).toOption
  return { f with pages }

/-- The ledger file that bytes are the written form of. -/
def ofBytes? (bs : Bytes) : Option LedgerFile := do
  guard (marker.isPrefixOf bs)
  let records ← (Codec.read (α := List DatabaseRecord) (bs.drop marker.length)).toOption
  let f ← records.foldlM addRecord {}
  f.paginate? (2 * bs.length + 64)

end LedgerFile

end RingDepth

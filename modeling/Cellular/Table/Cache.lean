import Cellular.Rule.Key
import Cellular.Table.Build

/-!
# A cache of tables

Tables are kept under the keys of the texts they were built from, in the order
in which they were built.  A text whose key is known is answered with the very
table that was built for the key; when the cache is full, the oldest table
makes room for a new one.
-/

namespace Cellular

/-- A table in a cache.  The stamp is the number of the build that made it, so
two tables with one stamp are the same table. -/
structure CachedTable where
  stamp : Nat
  table : Table

/-- A cache of tables, all built with the same settings. -/
structure TableCache where
  settings : Settings
  /-- The greatest number of tables kept, if there is one. -/
  capacity : Option Nat
  tables : InsertionMap String CachedTable
  /-- The number of requests answered from the cache. -/
  hits : Nat
  /-- The number of requests that needed a build. -/
  misses : Nat

namespace TableCache

/-- An empty cache.  A bounded cache has room for at least one table. -/
def new (settings : Settings) (capacity : Option Nat) : TableCache where
  settings := settings
  capacity := capacity.map (max 1)
  tables := .empty
  hits := 0
  misses := 0

def size (cache : TableCache) : Nat :=
  cache.tables.size

def isEmpty (cache : TableCache) : Bool :=
  cache.size == 0

/-- The tables that stay when one more is to be kept. -/
def withRoom (cache : TableCache) : InsertionMap String CachedTable :=
  match cache.capacity with
  | none => cache.tables
  | some capacity => cache.tables.dropOldest (cache.size + 1 - capacity)

/-- The table of a text, built if its key is not known.  A failed build leaves
the tables as they are. -/
def getOrBuild (cache : TableCache) (text : String) :
    Except BuildError CachedTable × TableCache :=
  match cache.tables.get? (Rule.key text) with
  | some found => (.ok found, { cache with hits := cache.hits + 1 })
  | none =>
    let misses := cache.misses + 1
    match Rule.buildText text cache.settings with
    | .error e => (.error e, { cache with misses })
    | .ok table =>
      let built : CachedTable := ⟨misses, table⟩
      let tables := cache.withRoom.insert (Rule.key text) built
      (.ok built, { cache with tables, misses })

/-- The table kept for a text. -/
def get? (cache : TableCache) (text : String) : Option CachedTable :=
  cache.tables.get? (Rule.key text)

/-- Whether a table is kept for a text. -/
def contains (cache : TableCache) (text : String) : Bool :=
  cache.tables.contains (Rule.key text)

/-- Drop the table of a text, and tell whether there was one. -/
def invalidate (cache : TableCache) (text : String) : Bool × TableCache :=
  (cache.contains text,
    { cache with tables := cache.tables.erase (Rule.key text) })

def clear (cache : TableCache) : TableCache :=
  { cache with tables := .empty }

end TableCache

end Cellular

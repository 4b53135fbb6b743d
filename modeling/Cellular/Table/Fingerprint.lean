import Cellular.Grid.Coord

/-!
# Fingerprints

The FNV-1a hash of a list of table entries.  Each key is fed as sixteen bytes
and each state as four, least significant byte first.
-/

namespace Cellular

namespace Fingerprint

def basis : UInt64 := 0xcbf29ce484222325

def prime : UInt64 := 0x00000100000001B3

/-- Feed one byte to the hash. -/
def addByte (hash : UInt64) (byte : Nat) : UInt64 :=
  (hash ^^^ UInt64.ofNat byte) * prime

/-- The `count` least significant bytes of a number, the least significant
first. -/
def bytes : Nat → Nat → List Nat
  | 0, _ => []
  | count + 1, n => n % 256 :: bytes count (n / 256)

/-- Feed one entry to the hash. -/
def addEntry (hash : UInt64) (entry : Nat × State) : UInt64 :=
  (bytes 16 entry.1 ++ bytes 4 entry.2).foldl addByte hash

/-- The hash of a list of entries. -/
def ofEntries (entries : List (Nat × State)) : UInt64 :=
  entries.foldl addEntry basis

end Fingerprint

end Cellular

import NorFlash.Address
import NorFlash.Bytes
import Std.Data.HashMap

/-!
# PageStore — sparse flash contents

Only the 4 KiB pages that have been touched since their last erase are kept;
every other byte reads as erased. Addresses count modulo the capacity.
-/

namespace NorFlash

/-- Contents of one 4 KiB page. -/
abbrev Page := Vector UInt8 pageSize

/-- An erased page. -/
def Page.erased : Page := Vector.replicate pageSize 0xff

/-- Contents of one chip, by page number. -/
structure PageStore where
  capacity : Nat
  pages : Std.HashMap Nat Page := {}

namespace PageStore

/-- Number of the page that holds an address. -/
def pageNumber (s : PageStore) (address : Nat) : Nat :=
  address % s.capacity / pageSize

/-- Position of an address in its page. -/
def indexInPage (s : PageStore) (address : Nat) : Fin pageSize :=
  ⟨address % s.capacity % pageSize, Nat.mod_lt _ (by decide)⟩

/-- The byte at an address. -/
def read (s : PageStore) (address : Nat) : UInt8 :=
  match s.pages[s.pageNumber address]? with
  | some page => page[s.indexInPage address]
  | none => 0xff

/-- Replace the byte at an address by a function of it. -/
def update (s : PageStore) (address : Nat) (f : UInt8 → UInt8) : PageStore :=
  let number := s.pageNumber address
  let index := s.indexInPage address
  { s with
    pages := s.pages.alter number fun page? =>
      let page := page?.getD Page.erased
      some (page.set index (f page[index])) }

/-- Set the byte at an address, whatever it was. -/
def store (s : PageStore) (address : Nat) (b : UInt8) : PageStore :=
  s.update address fun _ => b

/-- Program the byte at an address: bits can only be cleared. -/
def program (s : PageStore) (address : Nat) (b : UInt8) : PageStore :=
  s.update address fun old => old &&& b

/-- Erase `count` pages from the page at `base` on. -/
def erasePages (s : PageStore) (base : Nat) : (count : Nat) → PageStore
  | 0 => s
  | count + 1 =>
    erasePages { s with pages := s.pages.erase (s.pageNumber base) } (base + pageSize) count

/-- Erase `size` bytes from `base` on; both are multiples of 4 KiB. -/
def erase (s : PageStore) (base size : Nat) : PageStore :=
  s.erasePages base (size / pageSize)

/-- The bytes at `count` consecutive addresses. -/
def readRange (s : PageStore) (address count : Nat) : Bytes :=
  (List.range count).map fun i => s.read (address + i)

/-- Set the bytes at consecutive addresses. -/
def storeRange (s : PageStore) (address : Nat) : Bytes → PageStore
  | [] => s
  | b :: rest => (s.store address b).storeRange (address + 1) rest

end PageStore

end NorFlash

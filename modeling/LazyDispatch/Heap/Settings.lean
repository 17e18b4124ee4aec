/-!
# Heap settings

How the heap is divided into pools of equal cells, and how far it may grow.
-/

namespace LazyDispatch

/-- The shape of a heap. -/
structure HeapSettings where
  /-- The cell size of every pool in bytes, strictly ascending. -/
  cellSizes : List Nat := [32, 64, 128, 256]
  /-- The size in bytes by which a pool grows. -/
  superblockSize : Nat := 65536
  /-- The most superblocks that a pool may hold. -/
  maxSuperblocks : Option Nat := none
  /-- Collect before every allocation. -/
  torture : Bool := false

/-- The reasons why settings are refused. -/
inductive SettingsError where
  | noSizeClass
  | tooManySizeClasses
  | zeroSize
  | notAscending
  | superblockTooSmall
  | zeroSuperblocks
deriving DecidableEq

/-- The text of a reason. -/
def SettingsError.message : SettingsError → String
  | noSizeClass => "at least one size class is required"
  | tooManySizeClasses => "too many size classes"
  | zeroSize => "sizes must be > 0"
  | notAscending => "cell sizes must be strictly ascending"
  | superblockTooSmall => "superblock_size must hold at least one cell"
  | zeroSuperblocks => "max_superblocks must be > 0"

/-- Whether every number is less than the next one. -/
def strictlyAscending : List Nat → Bool
  | first :: second :: rest => first < second && strictlyAscending (second :: rest)
  | _ => true

/-- Checks settings; the first reason that applies is reported. -/
def HeapSettings.validate (settings : HeapSettings) :
    Except SettingsError Unit :=
  if settings.cellSizes.isEmpty then .error .noSizeClass
  else if 255 < settings.cellSizes.length then .error .tooManySizeClasses
  else if settings.cellSizes.contains 0 || settings.superblockSize == 0 then .error .zeroSize
  else if !strictlyAscending settings.cellSizes then .error .notAscending
  else if settings.cellSizes.any (settings.superblockSize < ·) then .error .superblockTooSmall
  else if settings.maxSuperblocks == some 0 then .error .zeroSuperblocks
  else .ok ()

end LazyDispatch

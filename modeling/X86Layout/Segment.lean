namespace X86Layout

/-- The segment registers; of several overrides the earliest in this list wins. -/
inductive Segment where
  | cs
  | ss
  | ds
  | es
  | fs
  | gs
  deriving DecidableEq

namespace Segment

def all : List Segment := [cs, ss, ds, es, fs, gs]

def name : Segment → String
  | cs => "CS"
  | ss => "SS"
  | ds => "DS"
  | es => "ES"
  | fs => "FS"
  | gs => "GS"

def overrideByte : Segment → UInt8
  | cs => 0x2E
  | ss => 0x36
  | ds => 0x3E
  | es => 0x26
  | fs => 0x64
  | gs => 0x65

def rank : Segment → Nat
  | cs => 0
  | ss => 1
  | ds => 2
  | es => 3
  | fs => 4
  | gs => 5

instance : LE Segment where
  le s t := s.rank ≤ t.rank

instance (s t : Segment) : Decidable (s ≤ t) := inferInstanceAs (Decidable (s.rank ≤ t.rank))

instance : Min Segment := minOfLe

def sort (segments : List Segment) : List Segment := segments.mergeSort (· ≤ ·)

theorem rank_injective {s t : Segment} (h : s.rank = t.rank) : s = t := by
  cases s <;> cases t <;> simp [rank] at h <;> rfl

end Segment

end X86Layout

import FormulaPath.Text.Bytes

/-!
A region is a half-open range of byte offsets. Offsets are held in 32 bits: larger ones are clamped
to `Region.limit` before use. Both bounds are part of the type, so a region is never reversed and
never leaves the range; the operations that could break this end in a fault. Offsets outside a
region are counted in 64 bits, and moving one past `offsetLimit` is a fault too.
-/
namespace FormulaPath

/-- Why a request has no answer. -/
inductive Fault where
  /-- The end of a range lies before its start. -/
  | reversed
  /-- An offset or a count passes the largest one. -/
  | overflow
  /-- A text is cut inside a character or behind its end. -/
  | misplaced
  /-- A part is asked for behind the last one. -/
  | exhausted
  /-- There are more parts than were allowed for. -/
  | endless
deriving DecidableEq, Repr

def distance (start stop : Nat) : Except Fault Nat :=
  if start ≤ stop then .ok (stop - start) else .error .reversed

/-- The largest offset into a text: offsets are counted in 64 bits. -/
def offsetLimit : Nat := 18446744073709551615

/-- The offset a number of bytes further on. -/
def advance (offset width : Nat) : Except Fault Nat :=
  if offset + width ≤ offsetLimit then .ok (offset + width) else .error .overflow

theorem advance_of_le {offset width : Nat} (h : offset + width ≤ offsetLimit) :
    advance offset width = .ok (offset + width) := if_pos h

/-- The largest offset a region can hold. -/
def Region.limit : Nat := 4294967295

structure Region where
  start : Nat
  stop : Nat
  start_le_stop : start ≤ stop
  stop_le_limit : stop ≤ Region.limit
deriving DecidableEq, Repr

namespace Region

/-- The nearest offset a region can hold. -/
def clamp (offset : Nat) : Nat := min offset limit

theorem clamp_le (offset : Nat) : clamp offset ≤ limit := Nat.min_le_right _ _

theorem clamp_mono {a b : Nat} (h : a ≤ b) : clamp a ≤ clamp b := by
  simp only [clamp]
  omega

theorem clamp_of_le {offset : Nat} (h : offset ≤ limit) : clamp offset = offset :=
  Nat.min_eq_left h

/-- The region between two clamped offsets, if they are in order. -/
def ofBounds (start stop : Nat) : Except Fault Region :=
  if h : clamp start ≤ clamp stop then .ok ⟨clamp start, clamp stop, h, clamp_le stop⟩
  else .error .reversed

/-- The region of `width` bytes at `start`, cut off at the limit. -/
def span (start width : Nat) : Region :=
  ⟨clamp start, clamp (start + width), clamp_mono (Nat.le_add_right _ _), clamp_le _⟩

theorem ofBounds_add (start width : Nat) :
    ofBounds start (start + width) = .ok (span start width) :=
  dif_pos (clamp_mono (Nat.le_add_right _ _))

def empty (offset : Nat) : Region := span offset 0

def length (r : Region) : Nat := r.stop - r.start

def isEmpty (r : Region) : Bool := r.start == r.stop

/-- Whether an offset falls inside the region; the end does not. -/
def contains (r : Region) (offset : Nat) : Bool :=
  decide (r.start ≤ clamp offset) && decide (clamp offset < r.stop)

/-- Whether `next` starts exactly `width` bytes after the end of `r`. -/
def isFollowedBy (r next : Region) (width : Nat) : Bool := r.stop + width == next.start

/-- Both bounds moved forward, if the result stays within the limit. -/
def shift (r : Region) (delta : Nat) : Except Fault Region :=
  if h : r.stop + clamp delta ≤ limit then
    .ok ⟨r.start + clamp delta, r.stop + clamp delta,
      Nat.add_le_add_right r.start_le_stop _, h⟩
  else .error .overflow

/-- The start moved forward, at most to the end. -/
def dropStart (r : Region) (delta : Nat) : Region :=
  ⟨min (r.start + delta) r.stop, r.stop, Nat.min_le_right _ _, r.stop_le_limit⟩

/-- The smallest region that covers both. -/
def cover (r s : Region) : Region where
  start := min r.start s.start
  stop := max r.stop s.stop
  start_le_stop := by
    have := r.start_le_stop
    omega
  stop_le_limit := Nat.max_le.mpr ⟨r.stop_le_limit, s.stop_le_limit⟩

/-- The text that the region marks, if both bounds fall between characters of `text`. -/
def substring? (r : Region) (text : String) : Option String :=
  match Text.cut? text.toList r.stop with
  | none => none
  | some (before, _) =>
    match Text.cut? before r.start with
    | none => none
    | some (_, inside) => some (String.ofList inside)

def display (r : Region) : String := toString r.start ++ ".." ++ toString r.stop

@[simp] theorem span_start (start width : Nat) : (span start width).start = clamp start := rfl

@[simp] theorem span_stop (start width : Nat) :
    (span start width).stop = clamp (start + width) := rfl

@[ext] theorem ext {r s : Region} (hstart : r.start = s.start) (hstop : r.stop = s.stop) :
    r = s := by
  cases r
  cases s
  simp_all

end Region

end FormulaPath

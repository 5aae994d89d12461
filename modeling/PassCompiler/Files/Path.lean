import PassCompiler.Text.Bytes

/-! Paths as texts. Segments stand between slashes; an empty segment and a single dot lead nowhere,
and count only at the front. What is cut off a path is cut off the text, so the rest of it stays as
it was written. -/
namespace PassCompiler

abbrev Path := Bytes

namespace Path

def segments : Bytes → List Bytes
  | [] => [[]]
  | b :: rest =>
    if b == 0x2F then [] :: segments rest
    else
      match segments rest with
      | [] => [[b]]
      | first :: others => (b :: first) :: others

def ofSegments : List Bytes → Path
  | [] => []
  | [s] => s
  | s :: others => s ++ 0x2F :: ofSegments others

def isAbsolute (p : Path) : Bool := p.head? == some 0x2F

/-- What the path starts from: the root, or the dot that names the current directory. -/
def anchor (p : Path) : Path :=
  match p with
  | 0x2F :: _ => [0x2F]
  | [0x2E] => [0x2E]
  | 0x2E :: 0x2F :: _ => [0x2E]
  | _ => []

def isIdle (segment : Bytes) : Bool := segment.isEmpty || segment == [0x2E]

/-- The segments behind the anchor, from the last that leads anywhere to the first. -/
def backwards (p : Path) : List Bytes :=
  (segments (p.drop p.anchor.length)).reverse.dropWhile isIdle

/-- The last segment, unless it leads upwards. -/
def fileName? (p : Path) : Option Bytes :=
  match p.backwards with
  | [] => none
  | last :: _ => if last == [0x2E, 0x2E] then none else some last

def parent? (p : Path) : Option Path :=
  match p.backwards with
  | [] => if p.anchor == [0x2E] then some [] else none
  | _ :: before => some (p.anchor ++ ofSegments (before.dropWhile isIdle).reverse)

/-- A file name cut at its last dot, unless that is its first byte: the stem, and the extension if
there is one. -/
def splitExtension (name : Bytes) : Bytes × Option Bytes :=
  let reversed := name.reverse
  match reversed.dropWhile (· != 0x2E) with
  | _ :: b :: before => ((b :: before).reverse, some (reversed.takeWhile (· != 0x2E)).reverse)
  | _ => (name, none)

def stem? (p : Path) : Option Bytes := p.fileName?.map fun name => (splitExtension name).1

def extension? (p : Path) : Option Bytes := p.fileName?.bind fun name => (splitExtension name).2

def join (p other : Path) : Path :=
  if other.isAbsolute then other
  else if p.isEmpty || p.getLast? == some 0x2F then p ++ other
  else p ++ 0x2F :: other

def sibling (p : Path) (name : Bytes) : Path :=
  if p.fileName?.isSome then (p.parent?.getD []).join name else p.join name

@[simp] theorem segments_ne_nil (p : Bytes) : segments p ≠ [] := by
  cases p with
  | nil => simp [segments]
  | cons b rest =>
    unfold segments
    split
    · simp
    · split <;> simp

theorem ofSegments_segments (p : Bytes) : ofSegments (segments p) = p := by
  induction p with
  | nil => rfl
  | cons b rest ih =>
    unfold segments
    split
    · next slash =>
      have : b = 0x2F := by simpa using slash
      cases h : segments rest with
      | nil => exact absurd h (segments_ne_nil rest)
      | cons first others => simp [ofSegments, ← h, ih, this]
    · cases h : segments rest with
      | nil => exact absurd h (segments_ne_nil rest)
      | cons first others =>
        rw [h] at ih
        cases others with
        | nil => simpa [ofSegments] using ih
        | cons second more => simpa [ofSegments] using ih

/-- A path is its segments, each with a slash behind it, but for the last slash. -/
theorem ofSegments_append_slash (all : List Bytes) (h : all ≠ []) :
    ofSegments all ++ [0x2F] = all.flatMap (· ++ [0x2F]) := by
  cases all with
  | nil => contradiction
  | cons s others =>
    induction others generalizing s with
    | nil => simp [ofSegments]
    | cons t more ih =>
      have := ih t (by simp)
      simp only [ofSegments, List.flatMap_cons, List.append_assoc, List.cons_append,
        List.nil_append] at this ⊢
      rw [this]

/-- A path is longer than what stands before one of its segments that is not empty. -/
theorem length_ofSegments_append_lt {front middle back : List Bytes} {last : Bytes}
    (h : last ≠ []) :
    (ofSegments front).length < (ofSegments (front ++ (middle ++ last :: back))).length := by
  have positive : 0 < last.length := List.length_pos_iff.mpr h
  have longer := congrArg List.length
    (ofSegments_append_slash (front ++ (middle ++ last :: back)) (by simp))
  simp only [List.flatMap_append, List.flatMap_cons, List.length_append, List.length_cons,
    List.length_nil] at longer
  cases front with
  | nil =>
    simp only [List.flatMap_nil, List.length_nil] at longer
    simp only [ofSegments, List.length_nil]
    omega
  | cons s others =>
    have shorter := congrArg List.length (ofSegments_append_slash (s :: others) (by simp))
    simp only [List.length_append, List.length_cons, List.length_nil] at shorter
    omega

theorem anchor_append_drop (p : Path) : p.anchor ++ p.drop p.anchor.length = p := by
  unfold anchor
  split <;> simp

theorem isIdle_of_backwards {p : Path} {last : Bytes} {before : List Bytes}
    (h : p.backwards = last :: before) : isIdle last = false := by
  have := List.head?_dropWhile_not isIdle (segments (p.drop p.anchor.length)).reverse
  unfold backwards at h
  rw [h] at this
  simpa using this

theorem length_lt_of_parent? {p q : Path} (h : p.parent? = some q) : q.length < p.length := by
  have whole := congrArg List.length p.anchor_append_drop
  rw [List.length_append] at whole
  unfold parent? at h
  split at h
  · split at h
    · next dot =>
      obtain rfl := Option.some.inj h
      have : p.anchor = [0x2E] := by simpa using dot
      rw [this] at whole
      simp only [List.length_cons, List.length_nil] at *
      omega
    · contradiction
  · next last before found =>
    obtain rfl := Option.some.inj h
    have nonempty : last ≠ [] := by
      intro empty
      have := isIdle_of_backwards found
      simp [isIdle, empty] at this
    obtain ⟨idle, hidle⟩ := List.dropWhile_suffix isIdle
      (l := (segments (p.drop p.anchor.length)).reverse)
    obtain ⟨more, hmore⟩ := List.dropWhile_suffix isIdle (l := before)
    have all : segments (p.drop p.anchor.length) =
        (before.dropWhile isIdle).reverse ++ (more.reverse ++ last :: idle.reverse) := by
      have reversed := congrArg List.reverse hidle
      unfold backwards at found
      rw [List.reverse_reverse, found, List.reverse_append, List.reverse_cons] at reversed
      have halves : before.reverse = (before.dropWhile isIdle).reverse ++ more.reverse := by
        rw [← List.reverse_append, hmore]
      rw [← reversed, halves]
      simp
    have shorter : (ofSegments (before.dropWhile isIdle).reverse).length <
        (p.drop p.anchor.length).length := by
      rw [← ofSegments_segments (p.drop p.anchor.length), all]
      exact length_ofSegments_append_lt nonempty
    rw [List.length_append]
    omega

end Path
end PassCompiler

import Mathlib.Data.List.Basic
import Mathlib.Data.List.DropRight
import Mathlib.Tactic.Basic

/-! # Paths

    What the virtual file system uses of `Kernel/library/cwalk.c`, with the
    separator of `CWK_STYLE_UNIX`: the segments of a path, and the join of
    paths with `.` and `..` resolved.

    The source moves a cursor over the paths; here the segments are a list, and
    what stands before and after the cursor are two lists.
-/

namespace Fennix.Fs.Path

/-- A string of the kernel. -/
abbrev Str := List Char

/-! ## Section 1: Segments -/

/-- `cwk_path_is_absolute`. -/
def isAbsolute (path : Str) : Bool := path.head? = some '/'

/-- All segments of a path, as `cwk_path_get_first_segment` and
    `cwk_path_get_next_segment` find them one after the other. -/
def segments (path : Str) : List Str := (path.splitOn '/').filter (· ≠ [])

/-- `cwk_path_get_dirname`: what stands before the last segment. -/
def dirname (path : Str) : Str := (path.rdropWhile (· = '/')).rdropWhile (· ≠ '/')

/-- `enum cwk_segment_type`. -/
inductive SegmentType where
  | normal
  | current
  | back
  deriving DecidableEq

/-- `cwk_path_get_segment_type`. -/
def segmentType (segment : Str) : SegmentType :=
  if segment = ['.'] then .current
  else if segment = ['.', '.'] then .back
  else .normal

/-! ## Section 2: Join and normalize -/

/-- `cwk_path_segment_back_will_be_removed`, over the segments before, the
    closest first. -/
def backWillBeRemoved : List Str → Int → Bool
  | [], _ => false
  | segment :: before, counter =>
    match segmentType segment with
    | .normal => if counter + 1 > 0 then true else backWillBeRemoved before (counter + 1)
    | .back => backWillBeRemoved before (counter - 1)
    | .current => backWillBeRemoved before counter

/-- `cwk_path_segment_normal_will_be_removed`, over the segments after. -/
def normalWillBeRemoved : List Str → Int → Bool
  | [], _ => false
  | segment :: after, counter =>
    match segmentType segment with
    | .normal => normalWillBeRemoved after (counter + 1)
    | .back => if counter - 1 < 0 then true else normalWillBeRemoved after (counter - 1)
    | .current => normalWillBeRemoved after counter

/-- `cwk_path_segment_will_be_removed`. -/
def segmentWillBeRemoved (absolute : Bool) (before : List Str) (segment : Str)
    (after : List Str) : Bool :=
  match segmentType segment with
  | .current => true
  | .back => absolute || backWillBeRemoved before 0
  | .normal => normalWillBeRemoved after 0

/-- The segments that the loop of the normalization writes out. -/
def kept (absolute : Bool) : List Str → List Str → List Str
  | _, [] => []
  | before, segment :: after =>
    if segmentWillBeRemoved absolute before segment after then kept absolute (segment :: before) after
    else segment :: kept absolute (segment :: before) after

/-- Segments with separators between them. -/
def output (segments : List Str) : Str := ['/'].intercalate segments

/-- `cwk_path_join_and_normalize_multiple`; what it writes fits into the buffers
    that it is given. -/
def joinAndNormalize (paths : List Str) : Str :=
  let absolute := isAbsolute (paths.headD [])
  let root : Str := if absolute then ['/'] else []
  let all := paths.flatMap segments
  if all = [] then root
  else
    let out := kept absolute [] all
    if out = [] ∧ root = [] then ['.'] else root ++ output out

/-- `cwk_path_join`. -/
def join (pathA pathB : Str) : Str := joinAndNormalize [pathA, pathB]

/-- `cwk_path_normalize`. -/
def normalize (path : Str) : Str := joinAndNormalize [path]

example : normalize "/var/foo/bar/../..".toList = "/var".toList ∧
    join "/home/user/Desktop".toList "../Documents".toList = "/home/user/Documents".toList ∧
    join "a".toList "../..".toList = "..".toList ∧ normalize "/../.".toList = "/".toList := by
  decide

/-! ## Section 3: Paths that are normal already -/

/-- A segment that is a name. -/
structure Plain (segment : Str) : Prop where
  nonempty : segment ≠ []
  separator : '/' ∉ segment
  normal : segmentType segment = .normal

variable {names : List Str} {segment path : Str}

theorem segments_output (h : ∀ s ∈ names, Plain s) : segments (output names) = names := by
  unfold segments output
  by_cases hnil : names = []
  · subst hnil
    rfl
  · rw [List.splitOn_intercalate '/' (fun s hs => (h s hs).separator) hnil]
    refine List.filter_eq_self.mpr ?_
    intro s hs
    simpa using (h s hs).nonempty

theorem segments_append_separator (pathA pathB : Str) :
    segments (pathA ++ '/' :: pathB) = segments pathA ++ segments pathB := by
  rw [segments, List.splitOn_append_cons_self, List.filter_append]
  rfl

theorem segments_separator (path : Str) : segments ('/' :: path) = segments path :=
  segments_append_separator [] path

theorem segments_absolute (h : ∀ s ∈ names, Plain s) : segments ('/' :: output names) = names := by
  rw [segments_separator, segments_output h]

theorem normalWillBeRemoved_of_plain (h : ∀ s ∈ names, Plain s) (counter : Int) :
    normalWillBeRemoved names counter = false := by
  induction names generalizing counter with
  | nil => rfl
  | cons s names ih =>
    rw [normalWillBeRemoved, (h s List.mem_cons_self).normal]
    exact ih (fun s hs => h s (List.mem_cons_of_mem _ hs)) _

theorem kept_of_plain (h : ∀ s ∈ names, Plain s) (absolute : Bool) (before : List Str) :
    kept absolute before names = names := by
  induction names generalizing before with
  | nil => rfl
  | cons s names ih =>
    have hrest : ∀ s ∈ names, Plain s := fun s hs => h s (List.mem_cons_of_mem _ hs)
    rw [kept, segmentWillBeRemoved, (h s List.mem_cons_self).normal]
    simp only [normalWillBeRemoved_of_plain hrest]
    rw [if_neg Bool.false_ne_true, ih hrest]

theorem normalize_of_plain (h : ∀ s ∈ names, Plain s) :
    normalize ('/' :: output names) = '/' :: output names := by
  have hall : ['/' :: output names].flatMap segments = names := by
    rw [List.flatMap_singleton, segments_absolute h]
  unfold normalize joinAndNormalize
  simp only [hall, List.headD_cons, isAbsolute, List.head?_cons, decide_true, if_true]
  by_cases hnil : names = []
  · subst hnil
    rfl
  · rw [if_neg hnil, if_neg (by simp), kept_of_plain h]
    rfl

end Fennix.Fs.Path

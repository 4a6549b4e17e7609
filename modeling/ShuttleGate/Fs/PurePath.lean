import Mathlib.Data.List.Basic

/-! # Pure paths

A path as text, without a file system: a root and the parts between the slashes, empty and `.`
parts dropped. -/

namespace Fs

/-- A part of a normalised path. -/
def IsPart (s : String) : Prop := s ≠ "" ∧ s ≠ "." ∧ '/' ∉ s.toList

instance : DecidablePred IsPart := fun _ => inferInstanceAs (Decidable (_ ∧ _ ∧ _))

@[ext] structure PurePath where
  /-- The empty text, `/` or `//`. -/
  root : String
  parts : List String
  plain : ∀ p ∈ parts, IsPart p
  deriving DecidableEq

namespace PurePath

def isAbsolute (p : PurePath) : Bool := p.root ≠ ""

/-- The text of the path. -/
def text (p : PurePath) : String :=
  if p.root = "" ∧ p.parts = [] then "." else p.root ++ "/".intercalate p.parts

/-- Two leading slashes are a root of their own, one or three and more are the ordinary root. -/
def rootOf : List Char → String
  | '/' :: '/' :: '/' :: _ => "/"
  | '/' :: '/' :: _ => "//"
  | '/' :: _ => "/"
  | _ => ""

/-- The path a text denotes. -/
def ofText (s : String) : PurePath where
  root := rootOf s.toList
  parts := ((s.toList.splitOn '/').map String.ofList).filter IsPart
  plain _ hp := by simpa using (List.mem_filter.mp hp).2

/-- `p.parent`; the parent of a bare root is the root. -/
def parent (p : PurePath) : PurePath where
  root := p.root
  parts := p.parts.dropLast
  plain _ h := p.plain _ (List.dropLast_subset _ h)

/-- `p.name` -/
def name (p : PurePath) : String := p.parts.getLast?.getD ""

/-- `p / s`: an absolute text replaces the path. -/
def join (p : PurePath) (s : String) : PurePath :=
  if (ofText s).isAbsolute then ofText s
  else
    { root := p.root
      parts := p.parts ++ (ofText s).parts
      plain := fun _ h => (List.mem_append.mp h).elim (p.plain _) ((ofText s).plain _) }

/-! ## The text denotes the path -/

/-- The root is one of the three there are. -/
def Rooted (p : PurePath) : Prop := p.root = "" ∨ p.root = "/" ∨ p.root = "//"

theorem rooted_ofText (s : String) : (ofText s).Rooted := by
  change rootOf s.toList = "" ∨ rootOf s.toList = "/" ∨ rootOf s.toList = "//"
  unfold rootOf
  split <;> simp

/-- Empty parts of a text are dropped. -/
theorem filter_isPart_cons_nil (l : List (List Char)) :
    (([] :: l).map String.ofList).filter IsPart = (l.map String.ofList).filter IsPart := by
  simp [IsPart]

theorem ofText_text {p : PurePath} (h : p.Rooted) : ofText p.text = p := by
  obtain ⟨root, parts, plain⟩ := p
  change root = "" ∨ root = "/" ∨ root = "//" at h
  cases parts with
  | nil =>
    have htext : (mk root [] plain).text = if root = "" then "." else root := by simp [text]
    rw [htext]
    rcases h with rfl | rfl | rfl <;> ext1 <;> dsimp only <;> decide +kernel
  | cons part parts =>
    -- the text below the root begins with the first part
    obtain ⟨hne, -, hslash⟩ := plain part List.mem_cons_self
    obtain ⟨c, cs, hc⟩ : ∃ c cs, part.toList = c :: cs :=
      List.exists_cons_of_ne_nil (by simpa using hne)
    have hcs : c ≠ '/' := by
      rintro rfl
      simp [hc] at hslash
    obtain ⟨tail, htail⟩ : ∃ tail,
        ("/".intercalate (part :: parts)).toList = c :: tail := by
      rw [String.toList_intercalate, List.map_cons, hc]
      cases parts with
      | nil => exact ⟨cs, by simp⟩
      | cons q qs => exact ⟨_, by rw [List.map_cons, List.intercalate_cons_cons]; rfl⟩
    have hsplit : (c :: tail).splitOn '/' = (part :: parts).map String.toList := by
      rw [← htail, String.toList_intercalate]
      refine List.splitOn_intercalate '/' (fun l hl => ?_) (by simp)
      obtain ⟨q, hq, rfl⟩ := List.mem_map.mp hl
      exact (plain q hq).2.2
    have hparts : (((c :: tail).splitOn '/').map String.ofList).filter IsPart = part :: parts := by
      rw [hsplit, List.map_map, List.filter_eq_self.mpr]
      · simp
      · simpa using plain
    have htext : (mk root (part :: parts) plain).text.toList = root.toList ++ c :: tail := by
      simp [text, htail]
    have hslashes (l : List Char) : ('/' :: l).splitOn '/' = [] :: l.splitOn '/' := by
      simp [List.splitOn, List.splitOnP_cons_eq_if_modifyHead]
    rcases h with rfl | rfl | rfl <;> ext1 <;> simp only [ofText, htext]
    · simp [rootOf, hcs]
    · exact hparts
    · simp [rootOf, hcs]
    · change ((('/' :: c :: tail).splitOn '/').map String.ofList).filter IsPart = _
      rw [hslashes, filter_isPart_cons_nil, hparts]
    · simp [rootOf, hcs]
    · change ((('/' :: '/' :: c :: tail).splitOn '/').map String.ofList).filter IsPart = _
      rw [hslashes, filter_isPart_cons_nil, hslashes, filter_isPart_cons_nil, hparts]

theorem ofText_part {n : String} (h : IsPart n) :
    ofText n = ⟨"", [n], by simpa using h⟩ := by
  refine Eq.trans (congrArg ofText ?_) (ofText_text (p := ⟨"", [n], by simpa using h⟩) (.inl rfl))
  simp [text]

/-- A single part goes to the end. -/
theorem join_part (p : PurePath) {n : String} (h : IsPart n) :
    (p.join n).root = p.root ∧ (p.join n).parts = p.parts ++ [n] := by
  have hn := ofText_part h
  have hrel : ¬ (ofText n).isAbsolute = true := by simp [hn, isAbsolute]
  rw [join, if_neg hrel]
  exact ⟨rfl, congrArg (fun q => p.parts ++ q.parts) hn⟩

theorem parent_join (p : PurePath) {n : String} (h : IsPart n) : (p.join n).parent = p := by
  obtain ⟨hroot, hparts⟩ := p.join_part h
  ext1 <;> simp [parent, hroot, hparts]

theorem name_join (p : PurePath) {n : String} (h : IsPart n) : (p.join n).name = n := by
  simp [name, (p.join_part h).2]

theorem text_inj {p q : PurePath} (hp : p.Rooted) (hq : q.Rooted) : p.text = q.text ↔ p = q :=
  ⟨fun h => by rw [← ofText_text hp, h, ofText_text hq], congrArg _⟩

end PurePath
end Fs

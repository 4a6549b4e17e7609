import ShuttleGate.Render
import ShuttleGate.Net.Cidr

/-! # The values of a rendered line

A line `KEY = A, B, C` as its consumers read it: the values between the commas, without the blanks
around them. A list of plain addresses is read back as it was written; a zone, whatever it
contains, shows in some value. -/

namespace ShuttleGate

open Net

/-- The values of a line with the given key; no values for another line. -/
def entries (key : String) (line : List Char) : List String :=
  match line.dropPrefix? (key ++ " = ").toList with
  | none => []
  | some value => (value.splitOn ',').map fun entry => strip (.ofList entry)

/-- A character that neither ends a value nor is dropped at its ends. -/
def isEntryChar (c : Char) : Bool := c != ',' && !isSpace c

theorem isEntryChar_of_toNat (h : 0x2d < c.toNat ∧ c.toNat ≤ 0x7e) : isEntryChar c = true := by
  have hcomma : c ≠ ',' := by
    rintro rfl
    exact absurd h.1 (by decide)
  have hspace : isSpace c = false := by
    simp only [isSpace, List.contains_eq_mem, List.mem_cons, List.not_mem_nil, or_false,
      Bool.or_eq_false_iff, decide_eq_false_iff_not, Bool.and_eq_false_iff]
    omega
  simp [isEntryChar, hcomma, hspace]

theorem toList_strip (s : List Char) : (strip (.ofList s)).toList =
    ((s.dropWhile isSpace).reverse.dropWhile isSpace).reverse := by
  rw [strip, String.toList_ofList, String.toList_ofList]

theorem strip_eq {s : List Char} (h : ∀ c ∈ s, isEntryChar c = true) :
    strip (.ofList s) = .ofList s ∧ strip (.ofList (' ' :: s)) = .ofList s := by
  have hspace : ∀ c ∈ s, isSpace c = false := fun c hc => by
    have := h c hc
    simp only [isEntryChar, Bool.and_eq_true, Bool.not_eq_true'] at this
    exact this.2
  have hkeep {l : List Char} (hl : ∀ c ∈ l, isSpace c = false) : l.dropWhile isSpace = l := by
    cases l with
    | nil => rfl
    | cons c l => exact List.dropWhile_cons_of_neg (by simp [hl c List.mem_cons_self])
  have hrev : ∀ c ∈ s.reverse, isSpace c = false := fun c hc => hspace c (List.mem_reverse.mp hc)
  have hplain : ((s.dropWhile isSpace).reverse.dropWhile isSpace).reverse = s := by
    rw [hkeep hspace, hkeep hrev, List.reverse_reverse]
  constructor
  · exact String.toList_inj.mp (by rw [toList_strip, hplain, String.toList_ofList])
  · refine String.toList_inj.mp ?_
    rw [toList_strip, List.dropWhile_cons_of_pos (by decide), hplain, String.toList_ofList]

/-- A character that is no blank survives at the ends, too. -/
theorem mem_strip {s : List Char} (hc : c ∈ s) (hspace : isSpace c = false) :
    c ∈ (strip (.ofList s)).toList := by
  have hkeep {l : List Char} (hl : c ∈ l) : c ∈ l.dropWhile isSpace := by
    rw [← List.takeWhile_append_dropWhile (p := isSpace) (l := l), List.mem_append] at hl
    rcases hl with hl | hl
    · rw [List.mem_takeWhile_imp hl] at hspace
      cases hspace
    · exact hl
  rw [toList_strip, List.mem_reverse]
  exact hkeep (List.mem_reverse.mpr (hkeep hc))

/-- Splitting a comma-separated list leaves a blank before every value but the first. -/
theorem splitOn_commas {l : List Char} {ls : List (List Char)} (h : ∀ m ∈ l :: ls, ',' ∉ m) :
    (([',', ' '] : List Char).intercalate (l :: ls)).splitOn ',' = l :: ls.map (' ' :: ·) := by
  induction ls generalizing l with
  | nil => simpa using List.splitOn_eq_singleton (h l List.mem_cons_self)
  | cons m ls ih =>
    have hl := List.splitOn_eq_singleton (h l List.mem_cons_self)
    have hrest := ih fun k hk => h k (List.mem_cons_of_mem l hk)
    rw [List.intercalate_cons_cons, List.append_assoc, List.cons_append,
      List.splitOn_append_cons_self, hl, List.singleton_append, List.singleton_append,
      List.splitOn_cons_eq_if_modifyHead, if_neg (by decide), hrest]
    rfl

theorem dropPrefix?_line (key value : String) :
    (key ++ " = " ++ value).toList.dropPrefix? (key ++ " = ").toList = some value.toList := by
  rw [String.toList_append]
  exact List.dropPrefix?_append_of_beq _ (beq_self_eq_true _)

/-- Two texts differ at a place both have. -/
def mismatch : List Char → List Char → Bool
  | a :: as, b :: bs => a != b || mismatch as bs
  | _, _ => false

theorem dropPrefix?_of_mismatch {p q : List Char} (h : mismatch p q = true) (r : List Char) :
    (q ++ r).dropPrefix? p = none := by
  induction p generalizing q with
  | nil => cases h
  | cons a p ih =>
    cases q with
    | nil => cases h
    | cons b q =>
      rw [List.cons_append, List.dropPrefix?]
      by_cases hab : a = b
      · subst hab
        have hrest : mismatch p q = true := by simpa [mismatch] using h
        simp [ih hrest]
      · simp [Ne.symm hab]

/-- A line with another head has no values. -/
theorem entries_eq_nil {key head : String} (h : mismatch (key ++ " = ").toList head.toList = true)
    (rest : String) : entries key (head ++ rest).toList = [] := by
  rw [entries, String.toList_append, dropPrefix?_of_mismatch h]

/-- A list of plain values is read back. -/
theorem entries_intercalate (key : String) {texts : List String} (hne : texts ≠ [])
    (h : ∀ t ∈ texts, ∀ c ∈ t.toList, isEntryChar c = true) :
    entries key (key ++ " = " ++ ", ".intercalate texts).toList = texts := by
  rw [entries, dropPrefix?_line]
  obtain ⟨t, texts, rfl⟩ := List.exists_cons_of_ne_nil hne
  have hcomma : ∀ m ∈ t.toList :: texts.map String.toList, ',' ∉ m := by
    intro m hm hc
    obtain ⟨u, hu, rfl⟩ := List.mem_map.mp (show m ∈ (t :: texts).map String.toList from hm)
    exact absurd (h u hu _ hc) (by decide)
  have hsplit : ((", ".intercalate (t :: texts)).toList.splitOn ',') =
      t.toList :: (texts.map String.toList).map (' ' :: ·) := by
    rw [String.toList_intercalate]
    exact splitOn_commas hcomma
  simp only [hsplit, List.map_cons, List.map_map]
  have hrest : texts.map (fun u => strip (.ofList (' ' :: u.toList))) = texts.map id := by
    refine List.map_congr_left fun u hu => ?_
    rw [(strip_eq (h u (List.mem_cons_of_mem t hu))).2, String.ofList_toList, id]
  rw [(strip_eq (h t List.mem_cons_self)).1, String.ofList_toList]
  exact congrArg (t :: ·) (hrest.trans texts.map_id)

/-- A character of the value that is neither a comma nor a blank is in one of the values read. -/
theorem exists_entry (key : String) {value : String} (hc : c ∈ value.toList) (h : isEntryChar c = true) :
    ∃ e ∈ entries key (key ++ " = " ++ value).toList, c ∈ e.toList := by
  rw [entries, dropPrefix?_line]
  simp only [isEntryChar, Bool.and_eq_true, bne_iff_ne, ne_eq, Bool.not_eq_true'] at h
  have hjoin : [','].intercalate (value.toList.splitOn ',') = value.toList :=
    List.intercalate_splitOn ','
  rw [← hjoin] at hc
  rcases mem_intercalate hc with hc | ⟨l, hl, hc⟩
  · exact absurd hc h.1
  · exact ⟨_, List.mem_map_of_mem hl, mem_strip hc h.2⟩

end ShuttleGate

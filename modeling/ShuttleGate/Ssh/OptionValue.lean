import Mathlib.Data.List.Infix
import Mathlib.Tactic.Common

/-! # File lists in OpenSSH options

An option such as `UserKnownHostsFile` holds a list of files: words separated by blanks, with
quotes for grouping and `#` for a comment, in which `%` tokens and variables are expanded. A plain
text is a list of itself (`files_plain`). Conversely, an environment whose values are plain can only
take special characters away, so a text read as itself is plain (`plain_of_files`). -/

namespace OpenSsh

/-! ## Words -/

def isBlank (c : Char) : Bool := c = ' ' || c = '\t'

def isQuote (c : Char) : Bool := c = '"' || c = '\''

/-- The characters at which the words of a text end or a group begins. -/
def isSplit (c : Char) : Bool := isBlank c || isQuote c || c = '#'

/-- The words of a text after an open quote and the part of the current word read so far; `none`
when a quote is not closed. -/
def wordsFrom : Option Char → Option (List Char) → List Char → Option (List (List Char))
  | none, word, [] => some word.toList
  | some _, _, [] => none
  | some q, word, c :: s =>
    if c = q then wordsFrom none word s else wordsFrom (some q) (some (word.getD [] ++ [c])) s
  | none, word, c :: s =>
    if isBlank c then (word.toList ++ ·) <$> wordsFrom none none s
    else if c = '#' then some word.toList
    else if isQuote c then wordsFrom (some c) (some (word.getD [])) s
    else wordsFrom none (some (word.getD [] ++ [c])) s

def words (s : List Char) : Option (List (List Char)) := wordsFrom none none s

/-! ## Expansion -/

/-- What tokens and variables stand for. -/
structure Environment where
  token : Char → Option String
  getenv : String → Option String

/-- `%%` is a percent sign whatever the other tokens are. -/
def Environment.percent (env : Environment) (c : Char) : Option String :=
  if c = '%' then some "%" else env.token c

inductive Expansion
  | text
  | percent
  | braced (name : List Char)

/-- The expansion of a text; `none` at an unknown or unfinished token or variable. -/
def expandFrom (env : Environment) : Expansion → List Char → Option (List Char)
  | .text, [] => some []
  | .text, '%' :: s => expandFrom env .percent s
  | .text, '$' :: '\x7b' :: s => expandFrom env (.braced []) s
  | .text, c :: s => (c :: ·) <$> expandFrom env .text s
  | .percent, [] => none
  | .percent, c :: s => do
    let value ← env.percent c
    return value.toList ++ (← expandFrom env .text s)
  | .braced _, [] => none
  | .braced name, c :: s =>
    if c = '\x7d' then do
      let value ← env.getenv (.ofList name)
      return value.toList ++ (← expandFrom env .text s)
    else expandFrom env (.braced (name ++ [c])) s

def expand (env : Environment) (s : List Char) : Option (List Char) := expandFrom env .text s

/-- The files an option value names. -/
def files (env : Environment) (value : List Char) : Option (List (List Char)) := do
  (← words value).mapM (expand env)

/-! ## Plain texts -/

/-- The start of a variable. -/
def variableStart : List Char := ['$', '\x7b']

/-- No blank, quote, comment sign, token or variable. -/
structure Plain (s : List Char) : Prop where
  split : ∀ c ∈ s, isSplit c = false
  percent : '%' ∉ s
  dollar : ¬ variableStart <:+: s

theorem wordsFrom_plain (h : ∀ c ∈ s, isSplit c = false) :
    wordsFrom none (some word) s = some [word ++ s] := by
  induction s generalizing word with
  | nil => simp [wordsFrom]
  | cons c s ih =>
    obtain ⟨hc, hs⟩ := List.forall_mem_cons.mp h
    simp only [isSplit, Bool.or_eq_false_iff, decide_eq_false_iff_not] at hc
    rw [wordsFrom, if_neg (by simp [hc.1.1]), if_neg hc.2, if_neg (by simp [hc.1.2]),
      Option.getD_some, ih hs, List.append_assoc]
    rfl

theorem words_plain (hne : s ≠ []) (h : ∀ c ∈ s, isSplit c = false) : words s = some [s] := by
  obtain ⟨c, s, rfl⟩ := List.exists_cons_of_ne_nil hne
  obtain ⟨hc, hs⟩ := List.forall_mem_cons.mp h
  simp only [isSplit, Bool.or_eq_false_iff, decide_eq_false_iff_not] at hc
  rw [words, wordsFrom, if_neg (by simp [hc.1.1]), if_neg hc.2, if_neg (by simp [hc.1.2]),
    wordsFrom_plain hs]
  rfl

theorem variableStart_tail (h : ¬ variableStart <:+: c :: s) : ¬ variableStart <:+: s :=
  fun hs => h (hs.trans (List.suffix_cons c s).isInfix)

theorem expand_plain (hp : '%' ∉ s) (hv : ¬ variableStart <:+: s) : expand env s = some s := by
  induction s with
  | nil => rfl
  | cons c s ih =>
    have hs := ih (fun h => hp (List.mem_cons_of_mem c h)) (variableStart_tail hv)
    rw [expand] at hs ⊢
    rw [expandFrom]
    · rw [hs]
      rfl
    · rintro rfl
      exact hp List.mem_cons_self
    · rintro t rfl rfl
      exact hv ⟨[], t, rfl⟩

/-- A plain text names one file. -/
theorem files_plain (hne : s ≠ []) (h : Plain s) : files env s = some [s] := by
  rw [files, words_plain hne h.split]
  simp [expand_plain h.percent h.dollar]

/-! ## Special characters -/

/-- Every character that has a meaning of its own. -/
def isSpecial (c : Char) : Bool := isSplit c || c = '%' || c = '$'

/-- An environment whose values have no special characters. -/
structure Environment.Plain (env : Environment) : Prop where
  token : ∀ c value, env.token c = some value → ∀ c' ∈ value.toList, isSpecial c' = false
  getenv : ∀ name value, env.getenv name = some value →
    ∀ c ∈ value.toList, isSpecial c = false

/-- No tokens and no variables. -/
def Environment.empty : Environment where
  token _ := none
  getenv _ := none

theorem Environment.plain_empty : Environment.empty.Plain where
  token _ _ h := by cases h
  getenv _ _ h := by cases h

theorem countP_isSpecial_eq_zero {s : List Char} (h : ∀ c ∈ s, isSpecial c = false) : s.countP isSpecial = 0 := by
  rw [List.countP_eq_zero]
  intro c hc
  simp [h c hc]

theorem isSpecial_of_isSplit (h : isSplit c = true) : isSpecial c = true := by simp [isSpecial, h]

theorem variableStart_append {front s : List Char} (h : '$' ∉ front) :
    variableStart <:+: front ++ s ↔ variableStart <:+: s := by
  induction front with
  | nil => rfl
  | cons c front ih =>
    rw [List.cons_append, List.infix_cons_iff, ih fun hmem => h (List.mem_cons_of_mem c hmem)]
    refine or_iff_right ?_
    rintro ⟨rest, hrest⟩
    exact h (List.mem_cons.mpr (.inl (List.cons.inj hrest).1))

/-- A front without special characters does not matter. -/
theorem plain_append {front s : List Char} (h : ∀ c ∈ front, isSpecial c = false) :
    Plain (front ++ s) ↔ Plain s := by
  have hfront : (∀ c ∈ front, isSplit c = false) ∧ '%' ∉ front ∧ '$' ∉ front := by
    refine ⟨fun c hc => ?_, fun hp => ?_, fun hd => ?_⟩
    · have := h c hc
      simp only [isSpecial, Bool.or_eq_false_iff] at this
      exact this.1.1
    · exact absurd (h _ hp) (by decide)
    · exact absurd (h _ hd) (by decide)
  constructor
  · rintro ⟨hsplit, hpercent, hdollar⟩
    exact ⟨fun c hc => hsplit c (List.mem_append_right _ hc),
      fun hp => hpercent (List.mem_append_right _ hp), mt (variableStart_append hfront.2.2).mpr hdollar⟩
  · rintro ⟨hsplit, hpercent, hdollar⟩
    refine ⟨fun c hc => (List.mem_append.mp hc).elim (hfront.1 c) (hsplit c), fun hp => ?_,
      mt (variableStart_append hfront.2.2).mp hdollar⟩
    exact (List.mem_append.mp hp).elim hfront.2.1 hpercent

/-- The words of a text have no more special characters than the text, and fewer if it is split. -/
theorem countP_wordsFrom (h : wordsFrom q word s = some ws) :
    ws.flatten.countP isSpecial ≤ (word.getD []).countP isSpecial + s.countP isSpecial ∧
      (q = none → (∃ c ∈ s, isSplit c = true) →
        ws.flatten.countP isSpecial < (word.getD []).countP isSpecial + s.countP isSpecial) := by
  have hword (word : Option (List Char)) : word.toList.flatten = word.getD [] := by cases word <;> simp
  induction s generalizing q word ws with
  | nil =>
    cases q with
    | some q => cases h
    | none =>
      obtain rfl := Option.some.inj h
      simp [hword]
  | cons c s ih =>
    have hcons : (c :: s).countP isSpecial = s.countP isSpecial + if isSpecial c then 1 else 0 :=
      List.countP_cons
    have hpush (word : List Char) : (word ++ [c]).countP isSpecial =
        word.countP isSpecial + if isSpecial c then 1 else 0 := by
      simp [List.countP_append, List.countP_cons]
    cases q with
    | some q =>
      rw [wordsFrom] at h
      refine ⟨?_, fun hq => by cases hq⟩
      split at h
      · have := (ih h).1
        omega
      · have := (ih h).1
        rw [Option.getD_some, hpush] at this
        omega
    | none =>
      rw [wordsFrom] at h
      by_cases hc : isSplit c = true
      · -- the character itself goes away
        have hspecial := isSpecial_of_isSplit hc
        suffices hlt : ws.flatten.countP isSpecial <
            (word.getD []).countP isSpecial + (c :: s).countP isSpecial from ⟨hlt.le, fun _ _ => hlt⟩
        rw [hcons, if_pos hspecial]
        split at h
        · obtain ⟨ws', hws', rfl⟩ := Option.map_eq_some_iff.mp h
          have := (ih hws').1
          rw [List.flatten_append, List.countP_append, hword]
          simp only [Option.getD_none, List.countP_nil] at this
          omega
        · split at h
          · obtain rfl := Option.some.inj h
            rw [hword]
            omega
          · split at h
            · have := (ih h).1
              rw [Option.getD_some] at this
              omega
            · simp_all [isSplit]
      · have hno : isSplit c = false := by simpa using hc
        simp only [isSplit, Bool.or_eq_false_iff, decide_eq_false_iff_not] at hno
        rw [if_neg (by simp [hno.1.1]), if_neg hno.2, if_neg (by simp [hno.1.2])] at h
        obtain ⟨hle, hlt⟩ := ih h
        rw [Option.getD_some, hpush] at hle hlt
        refine ⟨by omega, fun _ => ?_⟩
        rintro ⟨c', hc', hs⟩
        rcases List.mem_cons.mp hc' with rfl | hc'
        · exact absurd hs hc
        · have := hlt rfl ⟨c', hc', hs⟩
          omega

/-- An expansion by plain values has no more special characters than the text, and fewer if there
is a token or a variable. -/
theorem countP_expandFrom {env : Environment} (henv : env.Plain) {m : Expansion}
    (h : expandFrom env m s = some t) : t.countP isSpecial ≤ s.countP isSpecial ∧
      (m = .text → '%' ∈ s ∨ variableStart <:+: s → t.countP isSpecial < s.countP isSpecial) := by
  induction m, s using expandFrom.induct generalizing t with
  | case1 =>
    obtain rfl := Option.some.inj h
    exact ⟨le_rfl, fun _ hs => by simp [variableStart] at hs⟩
  | case2 s ih =>
    rw [expandFrom] at h
    have hle := (ih h).1
    have hcons : ('%' :: s).countP isSpecial = s.countP isSpecial + 1 := by
      simp [isSpecial]
    exact ⟨by omega, fun _ _ => by omega⟩
  | case3 s ih =>
    rw [expandFrom] at h
    have hle := (ih h).1
    have hcons : ('$' :: '\x7b' :: s).countP isSpecial = s.countP isSpecial + 1 := by
      simp [isSpecial, isSplit, isBlank, isQuote]
    exact ⟨by omega, fun _ _ => by omega⟩
  | case4 c s hpercent hdollar ih =>
    rw [expandFrom] at h
    · obtain ⟨t, ht, rfl⟩ := Option.map_eq_some_iff.mp h
      obtain ⟨hle, hlt⟩ := ih ht
      simp only [List.countP_cons]
      refine ⟨by omega, fun _ hs => ?_⟩
      have hs' : '%' ∈ s ∨ variableStart <:+: s := by
        rcases hs with hs | hs
        · rcases List.mem_cons.mp hs with hc | hs
          · exact (hpercent hc.symm).elim
          · exact .inl hs
        · rcases List.infix_cons_iff.mp hs with ⟨rest, hrest⟩ | hs
          · obtain ⟨hc, hs⟩ := List.cons.inj hrest
            exact (hdollar rest hc.symm hs.symm).elim
          · exact .inr hs
      have := hlt rfl hs'
      omega
    all_goals assumption
  | case5 => cases h
  | case6 c s ih =>
    rw [expandFrom] at h
    obtain ⟨value, hvalue, h⟩ := Option.bind_eq_some_iff.mp h
    obtain ⟨t, ht, h⟩ := Option.bind_eq_some_iff.mp h
    obtain rfl := Option.some.inj h
    have hle := (ih ht).1
    refine ⟨?_, fun hm => by cases hm⟩
    rw [List.countP_append, List.countP_cons]
    unfold Environment.percent at hvalue
    split at hvalue
    · next hc =>
      cases hvalue
      subst hc
      simp [isSpecial]
      omega
    · rw [countP_isSpecial_eq_zero (henv.token c value hvalue)]
      omega
  | case7 => cases h
  | case8 name s ih =>
    rw [expandFrom, if_pos rfl] at h
    obtain ⟨value, hvalue, h⟩ := Option.bind_eq_some_iff.mp h
    obtain ⟨t, ht, h⟩ := Option.bind_eq_some_iff.mp h
    obtain rfl := Option.some.inj h
    have hle := (ih ht).1
    refine ⟨?_, fun hm => by cases hm⟩
    rw [List.countP_append, List.countP_cons,
      countP_isSpecial_eq_zero (henv.getenv _ value hvalue)]
    omega
  | case9 name c s hc ih =>
    rw [expandFrom, if_neg hc] at h
    have hle := (ih h).1
    refine ⟨?_, fun hm => by cases hm⟩
    rw [List.countP_cons]
    omega

/-- Under plain values only a plain text names the file it spells. -/
theorem plain_of_files {env : Environment} (henv : env.Plain) (hne : s ≠ [])
    (h : files env s = some [s]) : Plain s := by
  obtain ⟨ws, hws, h⟩ := Option.bind_eq_some_iff.mp h
  obtain ⟨w, rfl, hw⟩ : ∃ w, ws = [w] ∧ expand env w = some s := by
    cases ws with
    | nil => cases h
    | cons w ws =>
      rw [List.mapM_cons] at h
      obtain ⟨t, ht, h⟩ := Option.bind_eq_some_iff.mp h
      obtain ⟨ts, hts, h⟩ := Option.bind_eq_some_iff.mp h
      obtain ⟨rfl, rfl⟩ := List.cons.inj (Option.some.inj h)
      cases ws with
      | nil => exact ⟨w, rfl, ht⟩
      | cons w' ws =>
        rw [List.mapM_cons] at hts
        obtain ⟨t', -, hts⟩ := Option.bind_eq_some_iff.mp hts
        obtain ⟨ts', -, hts⟩ := Option.bind_eq_some_iff.mp hts
        cases hts
  obtain ⟨hle, hlt⟩ := countP_wordsFrom hws
  obtain ⟨hle', hlt'⟩ := countP_expandFrom henv hw
  rw [List.flatten_singleton, Option.getD_none, List.countP_nil, Nat.zero_add] at hle hlt
  have hsplit : ∀ c ∈ s, isSplit c = false := by
    intro c hc
    by_contra hs
    have := hlt rfl ⟨c, hc, by simpa using hs⟩
    omega
  obtain rfl : w = s := by
    have hsame := hws.symm.trans (words_plain hne hsplit)
    simpa using hsame
  refine ⟨hsplit, fun hp => ?_, fun hv => ?_⟩
  · have := hlt' rfl (.inl hp)
    omega
  · have := hlt' rfl (.inr hv)
    omega

end OpenSsh

import Quill.Proofs.Markup.Includes
import Quill.Text.Blank

/-!
# A text word by word

A text is blank, or blanks, a word and what stands behind it. What depends on the words of a text
alone can be proved along them.

## Main definitions

* `Text.Blank`, `Text.IsWord`, `Text.Apart` — texts of blanks, texts without them, and texts that
  may stand right behind a word.
* `Text.unwords` — words with a space between neighbours.
* `Text.word_induction` — induction along the words.
* `Text.Respaced` — the beginning of a text, with other blanks between the words.
-/

namespace Quill.Text

def Blank (t : Text) : Prop := ∀ u ∈ t, isBlank u = true

structure IsWord (w : Text) : Prop where
  ne_nil : w ≠ []
  solid : ∀ u ∈ w, isBlank u = false

/-- A text that begins with a blank, if with anything. -/
def Apart (t : Text) : Prop := ∀ u ∈ t.head?, isBlank u = true

variable {t w a b rest gap : Text} {u : UInt16} {ws vs : List Text} {p : UInt16 → Bool}

theorem isBlank_space : isBlank (unit ' ') = true := by decide

@[simp] theorem blank_nil : Blank [] := by simp [Blank]

@[simp] theorem blank_cons : Blank (u :: t) ↔ isBlank u = true ∧ Blank t := by simp [Blank]

@[simp] theorem blank_append : Blank (a ++ b) ↔ Blank a ∧ Blank b := by
  simp [Blank, or_imp, forall_and]

@[simp] theorem apart_nil : Apart [] := by simp [Apart]

@[simp] theorem apart_cons : Apart (u :: t) ↔ isBlank u = true := by simp [Apart]

theorem blank_space : Blank [unit ' '] := by simp [isBlank_space]

theorem Blank.apart (blank : Blank t) : Apart t := fun u h => blank u (List.mem_of_mem_head? h)

/-- A word begins with a unit that is not blank. -/
theorem IsWord.exists_cons (word : IsWord w) : ∃ u v, w = u :: v ∧ isBlank u = false := by
  obtain ⟨u, v, rfl⟩ := List.exists_cons_of_ne_nil word.ne_nil
  exact ⟨u, v, rfl, word.solid u (by simp)⟩

theorem solid_of_any (none : t.any isBlank = false) : ∀ u ∈ t, isBlank u = false := by
  simpa using none

/-! ## Text in front of what is apart -/

theorem occursIn_iff {needle : Text} : occursIn needle t = true ↔ needle <:+: t := by
  induction t with
  | nil => simp [occursIn, List.isEmpty_iff]
  | cons u t ih => simp [occursIn, ih, List.infix_cons_iff, List.isPrefixOf_iff_prefix]

/-- Whether a word, or a sign, stands first is seen from the first word alone. -/
theorem startsWith_append {head : Text} (solid : ∀ u ∈ head, isBlank u = false) (apart : Apart rest)
    (t : Text) : startsWith (t ++ rest) head = startsWith t head := by
  induction t generalizing head with
  | nil =>
    cases head with
    | nil => simp [startsWith]
    | cons h head =>
      cases rest with
      | nil => simp
      | cons u rest =>
        have differ : h ≠ u := fun eq => by simp [← eq, solid h (by simp)] at apart
        simp [startsWith, List.isPrefixOf, differ]
  | cons u t ih =>
    cases head with
    | nil => simp [startsWith]
    | cons h head =>
      have := ih fun v (mem : v ∈ head) => solid v (by simp [mem])
      simp only [startsWith] at this
      simp [startsWith, List.isPrefixOf, this]

theorem head?_append_apart (apart : Apart rest) (solid : ∀ u, isBlank u = true → p u = false)
    (t : Text) :
    (t ++ rest).head?.any p = t.head?.any p := by
  cases t with
  | cons u t => rfl
  | nil =>
    cases rest with
    | nil => rfl
    | cons u rest => simpa using solid u (apart_cons.1 apart)

theorem takeWhile_eq_self (inside : ∀ u ∈ t, p u = true) : t.takeWhile p = t := by
  rw [← List.append_nil t, List.takeWhile_append_of_pos inside, List.takeWhile_nil]

theorem takeWhile_append_apart (apart : Apart rest) (solid : ∀ u, isBlank u = true → p u = false)
    (t : Text) : (t ++ rest).takeWhile p = t.takeWhile p := by
  induction t with
  | nil =>
    cases rest with
    | nil => rfl
    | cons u rest => simp [solid u (apart_cons.1 apart)]
  | cons u t ih => simp only [List.cons_append, List.takeWhile_cons, ih]

theorem dropWhile_append_apart (apart : Apart rest) (solid : ∀ u, isBlank u = true → p u = false)
    (t : Text) : (t ++ rest).dropWhile p = t.dropWhile p ++ rest := by
  rw [← drop_length_takeWhile, takeWhile_append_apart apart solid,
    List.drop_append_of_le_length (List.takeWhile_prefix p).length_le, drop_length_takeWhile]

/-! ## Trimming -/

theorem trimStart_of_solid (solid : isBlank u = false) (t : Text) :
    trimStart (u :: t) = u :: t := by
  simp [trimStart, solid]

@[simp] theorem trimStart_nil : trimStart [] = [] := rfl

theorem trimStart_append (blank : Blank gap) (t : Text) : trimStart (gap ++ t) = trimStart t :=
  List.dropWhile_append_of_pos blank

theorem Blank.trimStart (blank : Blank t) : trimStart t = [] := by
  simpa using trimStart_append blank []

/-- What is left begins with no blank. -/
theorem not_isBlank_of_mem_head?_trimStart (h : u ∈ (trimStart t).head?) : isBlank u = false := by
  have first := List.head?_dropWhile_not isBlank t
  rw [trimStart, Option.mem_def] at h
  simpa [h] using first

theorem exists_blank_append_trimStart (t : Text) : ∃ gap, Blank gap ∧ t = gap ++ trimStart t :=
  ⟨t.takeWhile isBlank, fun _ => of_mem_takeWhile, List.takeWhile_append_dropWhile.symm⟩

@[simp] theorem trimStart_trimStart (t : Text) : trimStart (trimStart t) = trimStart t := by
  cases h : trimStart t with
  | nil => rfl
  | cons u rest => exact trimStart_of_solid (not_isBlank_of_mem_head?_trimStart
    (t := t) (by simp [h])) _

theorem trimStart_eq_nil_iff : trimStart t = [] ↔ Blank t := by
  refine ⟨fun h => ?_, Blank.trimStart⟩
  obtain ⟨gap, blank, eq⟩ := exists_blank_append_trimStart t
  rw [h, List.append_nil] at eq
  exact eq ▸ blank

theorem trimEnd_append_of_blank (blank : Blank gap) (t : Text) :
    trimEnd (t ++ gap) = trimEnd t := by
  induction t with
  | nil =>
    induction gap with
    | nil => rfl
    | cons u gap ih => simp_all [trimEnd]
  | cons u t ih => rw [List.cons_append, trimEnd, trimEnd, ih]

theorem trimEnd_eq_nil_iff : trimEnd t = [] ↔ Blank t := by
  refine ⟨fun h => ?_, fun blank => by simpa using trimEnd_append_of_blank blank []⟩
  obtain ⟨tail, eq, blank⟩ := exists_trimEnd_append t
  rw [h, List.nil_append] at eq
  exact eq ▸ List.all_eq_true.1 blank

theorem trim_eq_nil_iff : trim t = [] ↔ Blank t := by
  rw [trim, trimEnd_eq_nil_iff, ← trimStart_eq_nil_iff, trimStart_trimStart, trimStart_eq_nil_iff]

theorem trimEnd_append_of_ne_nil (a : Text) (h : trimEnd b ≠ []) :
    trimEnd (a ++ b) = a ++ trimEnd b := by
  induction a with
  | nil => rfl
  | cons u a ih =>
    rw [List.cons_append, trimEnd, ih]
    split
    next eq => exact absurd (List.append_eq_nil_iff.1 eq).2 h
    next => rfl

/-- A text whose last unit is not blank has nothing to trim. -/
theorem trimEnd_eq_self_iff : trimEnd t = t ↔ ∀ u ∈ t.getLast?, isBlank u = false := by
  rcases List.eq_nil_or_concat t with rfl | ⟨t, u, rfl⟩
  · simp
  · cases h : isBlank u with
    | false => simp [trimEnd_append_of_ne_nil, trimEnd, h]
    | true =>
      have shorter := length_trimEnd_le t
      have ne : trimEnd t ≠ t ++ [u] := fun eq => by
        rw [eq, List.length_append, List.length_singleton] at shorter
        omega
      simp [trimEnd_append_of_blank, h, ne]

@[simp] theorem trimEnd_trimEnd (t : Text) : trimEnd (trimEnd t) = trimEnd t := by
  obtain ⟨tail, eq, blank⟩ := exists_trimEnd_append t
  conv => rhs; rw [eq, trimEnd_append_of_blank (List.all_eq_true.1 blank)]

theorem trimStart_trimEnd (t : Text) : trimStart (trimEnd t) = trimEnd (trimStart t) := by
  obtain ⟨gap, blank, eq⟩ := exists_blank_append_trimStart t
  cases h : trimStart t with
  | nil =>
    have := trimStart_eq_nil_iff.1 h
    simp [trimEnd_eq_nil_iff.2 this]
  | cons u rest =>
    have solid : isBlank u = false := not_isBlank_of_mem_head?_trimStart (t := t) (by simp [h])
    have first : ∃ kept, trimEnd (u :: rest) = u :: kept := by
      rw [trimEnd]
      split
      · exact ⟨[], by simp [solid]⟩
      · exact ⟨_, rfl⟩
    obtain ⟨kept, kept_eq⟩ := first
    have some_ : trimEnd (u :: rest) ≠ [] := by simp [kept_eq]
    rw [eq, h, trimEnd_append_of_ne_nil gap some_, trimStart_append blank, kept_eq,
      trimStart_of_solid solid]

/-- Blanks that follow blanks are not seen behind the first. -/
theorem trimStart_collapseBlanks (inside inside' : Bool) (t : Text) :
    trimStart (collapseBlanks inside t) = trimStart (collapseBlanks inside' t) := by
  have space (t : Text) : trimStart (unit ' ' :: t) = trimStart t :=
    trimStart_append blank_space t
  cases t with
  | nil => rfl
  | cons u t => cases inside <;> cases inside' <;> simp only [collapseBlanks] <;>
    split <;> simp [space]

theorem trimStart_collapseBlanks_append (blank : Blank gap) (inside : Bool) (t : Text) :
    trimStart (collapseBlanks inside (gap ++ t)) = trimStart (collapseBlanks inside t) := by
  induction gap generalizing inside with
  | nil => rfl
  | cons u gap ih =>
    rw [blank_cons] at blank
    rw [trimStart_collapseBlanks inside true, List.cons_append, collapseBlanks,
      if_pos blank.1, if_pos rfl, ih blank.2, trimStart_collapseBlanks true inside]

theorem trimEnd_eq_self_of_append (h : trimEnd (a ++ b) = a ++ b) : trimEnd b = b := by
  rw [trimEnd_eq_self_iff] at h ⊢
  intro u last
  exact h u (by simp [List.getLast?_append, Option.mem_def.1 last])

/-- Text in front of something without blanks at its end. -/
theorem trimEnd_append_eq_self (a : Text) (ne : b ≠ []) (h : trimEnd b = b) :
    trimEnd (a ++ b) = a ++ b := by
  rw [trimEnd_append_of_ne_nil a (by rwa [h]), h]

/-! ## Words -/

theorem split_append_cons (h : p u = true) (a b : Text) :
    split p (a ++ u :: b) = split p a ++ split p b := by
  induction a with
  | nil => simp [split, h]
  | cons v a ih =>
    rw [List.cons_append, split, split]
    split
    · rw [ih, List.cons_append]
    · rw [ih]
      obtain ⟨piece, pieces, eq⟩ := List.exists_cons_of_ne_nil (split_ne_nil p a)
      simp [eq]

/-- A blank parts the words before it from those behind it. -/
theorem words_append_cons (blank : isBlank u = true) (a b : Text) :
    words (a ++ u :: b) = words a ++ words b := by
  simp [words, split_append_cons blank]

@[simp] theorem words_nil : words [] = [] := rfl

theorem words_cons_blank (blank : isBlank u = true) (t : Text) : words (u :: t) = words t :=
  words_append_cons blank [] t

theorem words_blank_append (blank : Blank gap) (t : Text) : words (gap ++ t) = words t := by
  induction gap with
  | nil => rfl
  | cons u gap ih =>
    rw [blank_cons] at blank
    rw [List.cons_append, words_cons_blank blank.1, ih blank.2]

theorem Blank.words (blank : Blank t) : words t = [] := by simpa using words_blank_append blank []

theorem split_of_none (none : ∀ u ∈ t, p u = false) : split p t = [t] := by
  induction t with
  | nil => rfl
  | cons u t ih => simp_all [split]

theorem IsWord.words (word : IsWord w) : words w = [w] := by
  simp [Text.words, split_of_none word.solid, word.ne_nil]

theorem words_word_append (word : IsWord w) (apart : Apart rest) :
    words (w ++ rest) = w :: words rest := by
  cases rest with
  | nil => simpa using word.words
  | cons u rest =>
    have blank := apart_cons.1 apart
    rw [words_append_cons blank, words_cons_blank blank, word.words, List.singleton_append]

theorem blank_or_word (t : Text) : Blank t ∨ ∃ indent w rest, t = indent ++ (w ++ rest) ∧
    Blank indent ∧ IsWord w ∧ Apart rest := by
  obtain ⟨indent, blank, eq⟩ := exists_blank_append_trimStart t
  cases h : trimStart t with
  | nil => exact .inl (trimStart_eq_nil_iff.1 h)
  | cons u rest =>
    have solid := not_isBlank_of_mem_head?_trimStart (t := t) (by simp [h] : u ∈ _)
    refine .inr ⟨indent, (u :: rest).takeWhile (!isBlank ·), (u :: rest).dropWhile (!isBlank ·),
      by
        rw [List.takeWhile_append_dropWhile, ← h, ← eq], blank, ⟨?_, fun v hv => ?_⟩, fun v hv =>
          ?_⟩
    · simp [solid]
    · simpa using of_mem_takeWhile hv
    · have first := List.head?_dropWhile_not (!isBlank ·) (u :: rest)
      rw [Option.mem_def.1 hv] at first
      simpa using first

/-- What holds of blank texts, and of a word if it holds of what stands behind, holds of every
text. -/
@[elab_as_elim]
theorem word_induction {motive : Text → Prop} (blank : ∀ t, Blank t → motive t)
    (word : ∀ indent w rest, Blank indent → IsWord w → Apart rest → motive rest →
      motive (indent ++ (w ++ rest))) (t : Text) : motive t := by
  induction h : t.length using Nat.strongRecOn generalizing t with
  | ind n ih =>
    rcases blank_or_word t with whole | ⟨indent, w, rest, rfl, indented, solid, apart⟩
    · exact blank t whole
    · refine word indent w rest indented solid apart (ih _ ?_ _ rfl)
      have := List.length_pos_iff.2 solid.ne_nil
      simp only [List.length_append] at h
      omega

theorem isWord_of_mem_words (mem : w ∈ words t) : IsWord w := by
  induction t using word_induction with
  | blank t blank => simp [blank.words] at mem
  | word indent v rest indented word apart ih =>
    rw [words_blank_append indented, words_word_append word apart] at mem
    rcases List.mem_cons.1 mem with rfl | later
    · exact word
    · exact ih later

/-- A word stands in its text in one piece. -/
theorem isInfix_of_mem_words (mem : w ∈ words t) : w <:+: t := by
  induction t using word_induction with
  | blank t blank => simp [blank.words] at mem
  | word indent v rest indented word apart ih =>
    rw [words_blank_append indented, words_word_append word apart] at mem
    rcases List.mem_cons.1 mem with rfl | later
    · exact ⟨indent, rest, by simp⟩
    · exact (ih later).trans ⟨indent ++ v, [], by simp⟩

def unwords (ws : List Text) : Text := join [unit ' '] ws

@[simp] theorem unwords_nil : unwords [] = [] := rfl

@[simp] theorem unwords_singleton (w : Text) : unwords [w] = w := rfl

theorem unwords_cons_cons (w v : Text) (ws : List Text) :
    unwords (w :: v :: ws) = w ++ unit ' ' :: unwords (v :: ws) := by
  simp [unwords, join]

/-- The first word, and something apart from it. -/
theorem exists_unwords_cons (w : Text) (ws : List Text) :
    ∃ rest, unwords (w :: ws) = w ++ rest ∧ Apart rest := by
  cases ws with
  | nil => exact ⟨[], by simp⟩
  | cons v ws => exact ⟨_, unwords_cons_cons w v ws, by simp [isBlank_space]⟩

theorem unwords_append_singleton (w : Text) (ws : List Text) (v : Text) :
    unwords (w :: ws ++ [v]) = unwords (w :: ws) ++ unit ' ' :: v := by
  induction ws generalizing w with
  | nil => simp [unwords_cons_cons]
  | cons w' ws ih =>
    simp only [List.cons_append, unwords_cons_cons] at ih ⊢
    rw [ih w']
    simp

theorem words_unwords (all : ∀ w ∈ ws, IsWord w) : words (unwords ws) = ws := by
  induction ws with
  | nil => rfl
  | cons w ws ih =>
    cases ws with
    | nil => exact (all w (by simp)).words
    | cons v ws =>
      rw [unwords_cons_cons, words_append_cons isBlank_space, (all w (by simp)).words,
        ih fun w' mem => all w' (List.mem_cons_of_mem _ mem), List.singleton_append]

/-- Words put together end with a unit that is not blank. -/
theorem trimEnd_unwords (all : ∀ w ∈ ws, IsWord w) : trimEnd (unwords ws) = unwords ws := by
  induction ws with
  | nil => rfl
  | cons w ws ih =>
    have word := all w (by simp)
    have behind := ih fun v mem => all v (List.mem_cons_of_mem _ mem)
    cases ws with
    | nil =>
      exact trimEnd_eq_self_iff.2 fun u last => word.solid u (List.mem_of_mem_getLast? last)
    | cons v ws =>
      have ne : unwords (v :: ws) ≠ [] := by
        obtain ⟨rest, eq, -⟩ := exists_unwords_cons v ws
        simp [eq, (all v (by simp)).ne_nil]
      rw [unwords_cons_cons, ← List.singleton_append, ← List.append_assoc]
      exact trimEnd_append_eq_self _ ne behind

/-! ## Other blanks between the words -/

/-- The words of `b` are the first words of `a`; only the blanks between them may differ. -/
inductive Respaced : Text → Text → Prop where
  | stop {a : Text} : Apart a → Respaced a []
  | solid {u : UInt16} {a b : Text} : isBlank u = false → Respaced a b → Respaced (u :: a) (u :: b)
  | gap {g g' : Text} {u : UInt16} {a b : Text} : Blank g → g ≠ [] → Blank g' → g' ≠ [] →
    isBlank u = false → Respaced a b → Respaced (g ++ u :: a) (g' ++ u :: b)

namespace Respaced

theorem word (solid : ∀ u ∈ w, isBlank u = false) (h : Respaced a b) :
    Respaced (w ++ a) (w ++ b) := by
  induction w with
  | nil => exact h
  | cons u w ih => exact .solid (solid u (by simp)) (ih fun v mem => solid v (by simp [mem]))

/-- Blanks in front of a unit that is not blank are told from it. -/
theorem blanks_eq {g g' : Text} {u v : UInt16} (blank : Blank g) (blank' : Blank g')
    (hu : isBlank u = false) (hv : isBlank v = false) (eq : g ++ u :: a = g' ++ v :: b) :
    g = g' ∧ u = v ∧ a = b := by
  have front := congrArg (List.takeWhile isBlank) eq
  rw [takeWhile_append_cons blank hu, takeWhile_append_cons blank' hv] at front
  subst front
  simpa using eq

theorem of_cons (solid : isBlank u = false) (h : Respaced a (u :: b)) :
    ∃ a', a = u :: a' ∧ Respaced a' b := by
  generalize eq : u :: b = c at h
  cases h with
  | stop => simp at eq
  | solid _ h =>
    obtain ⟨rfl, rfl⟩ := List.cons.inj eq
    exact ⟨_, rfl, h⟩
  | @gap _ g' _ _ _ _ _ blank ne _ _ =>
    obtain ⟨v, g', rfl⟩ := List.exists_cons_of_ne_nil ne
    obtain ⟨rfl, -⟩ := List.cons.inj eq
    simp [solid] at blank

theorem of_word (solid : ∀ u ∈ w, isBlank u = false) (h : Respaced a (w ++ b)) :
    ∃ a', a = w ++ a' ∧ Respaced a' b := by
  induction w generalizing a with
  | nil => exact ⟨a, rfl, h⟩
  | cons u w ih =>
    obtain ⟨a', rfl, inner⟩ := h.of_cons (solid u (by simp))
    obtain ⟨a, rfl, behind⟩ := ih (fun v mem => solid v (by simp [mem])) inner
    exact ⟨a, rfl, behind⟩

theorem of_gap {g : Text} (blank : Blank g) (solid : isBlank u = false)
    (h : Respaced a (g ++ u :: b)) :
    ∃ g' a', a = g' ++ u :: a' ∧ Blank g' ∧ (g' = [] ↔ g = []) ∧ Respaced a' b := by
  generalize eq : g ++ u :: b = c at h
  cases h with
  | stop => simp at eq
  | solid solid' h =>
    obtain ⟨rfl, rfl, rfl⟩ := blanks_eq blank blank_nil solid solid' eq
    exact ⟨[], _, rfl, by simp, by simp, h⟩
  | gap blank' ne' blank'' ne solid' h =>
    obtain ⟨rfl, rfl, rfl⟩ := blanks_eq blank blank'' solid solid' eq
    exact ⟨_, _, rfl, blank', by simp [ne', ne], h⟩

/-- A unit that is not blank stands in both texts. -/
theorem mem (h : Respaced a b) (solid : isBlank u = false) (mem : u ∈ b) : u ∈ a := by
  induction h with
  | stop => simp at mem
  | solid _ _ ih => grind
  | @gap g g' v a b blank _ blank' _ _ _ ih =>
    have outside : u ∉ g' := fun mem => by simp [blank' u mem] at solid
    grind

end Respaced

/-- The first words of a text, one space between neighbours. -/
theorem respaced_unwords (h : words t = ws ++ vs) (ne : ws ≠ []) :
    Respaced (trimStart t) (unwords ws) := by
  induction t using word_induction generalizing ws with
  | blank t blank => simp [blank.words, ne] at h
  | word indent w rest indented word apart ih =>
    obtain ⟨u, w', rfl, solid⟩ := word.exists_cons
    have start : trimStart (indent ++ (u :: w' ++ rest)) = u :: w' ++ rest := by
      rw [trimStart_append indented, List.cons_append, trimStart_of_solid solid]
    rw [words_blank_append indented, words_word_append word apart] at h
    rw [start]
    obtain ⟨v, ws, rfl⟩ := List.exists_cons_of_ne_nil ne
    obtain ⟨rfl, others⟩ := List.cons.inj h
    cases ws with
    | nil => simpa using (Respaced.stop apart).word word.solid
    | cons v ws =>
      obtain ⟨g, blank, eq⟩ := exists_blank_append_trimStart rest
      have next : IsWord v := isWord_of_mem_words (t := rest) (by simp [others])
      obtain ⟨u', v', rfl, solid'⟩ := next.exists_cons
      obtain ⟨rest', same, -⟩ := exists_unwords_cons (u' :: v') ws
      obtain ⟨a, head, behind⟩ := (same ▸ ih others (by simp)).of_cons solid'
      have some_gap : g ≠ [] := by
        rintro rfl
        rw [head, List.nil_append] at eq
        simp [eq, solid'] at apart
      rw [unwords_cons_cons, eq, head, same]
      exact (Respaced.gap blank some_gap blank_space (by simp) solid' behind).word word.solid

end Quill.Text

import Quill.Layout.Document
import Quill.Proofs.Markup.Identifier

/-!
# Lines that have their layout

What the formatter makes of a heading or a directive line it leaves alone the next time.

## Main definitions

* `Layout.IsBinding`, `Layout.IsInclusion` — directive lines without their indentation;
  `binding?_eq_some_iff` and `inclusion?_eq_some_iff` say that the formatter knows no others.
* `Layout.HasLayout` — a line that is its own layout.

## Main statements

* `Layout.hasLayout_heading`, `Layout.hasLayout_directive` — the layout of such a line has its
  layout.
* `Layout.directive?_isSome_of_respaced` — whether a line is a directive line is seen from its
  words.
-/

namespace Quill.Layout

open Directive (keyword solid_keyword)
open Includes (mark unit_mark keyword_inclusion)
open Identifier (not_isBlank_of_isPart isPart_of_isValid leading?_append)
open Text (Blank IsWord Apart Respaced unwords)

variable {line t name value path rest head word a b : Text} {u : UInt16} {width : Int}
  {d : Directive}

/-- The equals sign of headings and bindings. -/
abbrev equals : UInt16 := 61

theorem unit_equals : Text.unit '=' = equals := by decide

theorem ofString_equals : Text.ofString "=" = [equals] := by decide

theorem ofString_mark : Text.ofString "\"" = [mark] := by decide

theorem isBlank_equals : Text.isBlank equals = false := by decide

theorem isBlank_mark : Text.isBlank mark = false := by decide

theorem keyword_binding : keyword .binding = [35, 108, 101, 116] := by decide

/-! ## Directive lines -/

theorem after?_eq_some_iff : after? head t = some rest ↔ t = head ++ rest := by
  unfold after?
  split
  next starts =>
    obtain ⟨tail, rfl⟩ := List.isPrefixOf_iff_prefix.1 starts
    simp
  next fails =>
    refine ⟨fun h => by simp at h, fun h => absurd ?_ fails⟩
    exact List.isPrefixOf_iff_prefix.2 ⟨rest, h.symm⟩

theorem restOfLine?_eq_some_iff :
    restOfLine? t = some value ↔ Text.trimStart t = value ∧ value.any isSeparator = false := by
  unfold restOfLine?
  dsimp only
  split <;> grind

/-- The rest of a line does not begin with a blank. -/
theorem trimStart_of_restOfLine? (found : restOfLine? t = some value) :
    Text.trimStart value = value := by
  rw [← (restOfLine?_eq_some_iff.1 found).1, Text.trimStart_trimStart]

def IsBinding (t name rest : Text) : Prop :=
  ∃ gap gap', t = keyword .binding ++ (gap ++ (name ++ (gap' ++ equals :: rest))) ∧
    gap ≠ [] ∧ Blank gap ∧ Blank gap' ∧ Identifier.isValid name

def IsInclusion (t path rest : Text) : Prop :=
  ∃ gap, t = keyword .inclusion ++ (gap ++ mark :: (path ++ mark :: rest)) ∧
    gap ≠ [] ∧ Blank gap ∧ ∀ u ∈ path, (u != mark) = true

theorem IsBinding.valid (binding : IsBinding t name rest) : Identifier.isValid name := by
  obtain ⟨_, _, _, _, _, _, valid⟩ := binding
  exact valid

theorem IsBinding.suffix (binding : IsBinding t name rest) : rest <:+ t := by
  obtain ⟨gap, gap', rfl, -⟩ := binding
  exact ⟨keyword .binding ++ gap ++ name ++ gap' ++ [equals], by simp⟩

theorem IsInclusion.inner (inclusion : IsInclusion t path rest) : ∀ u ∈ path,
    (u != mark) = true := by
  obtain ⟨_, _, _, _, inner⟩ := inclusion
  exact inner

theorem IsInclusion.suffix (inclusion : IsInclusion t path rest) : rest <:+ t := by
  obtain ⟨gap, rfl, -⟩ := inclusion
  exact ⟨keyword .inclusion ++ gap ++ [mark] ++ path ++ [mark], by simp⟩

theorem binding?_eq_some_iff : binding? line = some (name, value) ↔
    ∃ rest, IsBinding (Text.trimStart line) name rest ∧ restOfLine? rest = some value := by
  constructor
  · intro found
    simp only [binding?, Option.bind_eq_bind, Option.bind_eq_some_iff, after?_eq_some_iff,
      ofString_equals] at found
    obtain ⟨t, start, found⟩ := found
    by_cases some_gap : (Text.trimStart t).length = t.length
    · simp [some_gap] at found
    · simp only [some_gap, if_false, Option.bind_eq_some_iff, after?_eq_some_iff] at found
      obtain ⟨name', leads, rest, rest_eq, value', found, same⟩ := found
      obtain ⟨rfl, rfl⟩ : name' = name ∧ value' = value := by simpa using same
      obtain ⟨gap, blank, gap_eq⟩ := Text.exists_blank_append_trimStart t
      obtain ⟨behind, behind_eq⟩ := Identifier.isPrefixOf_of_leading? leads
      obtain ⟨gap', blank', gap_eq'⟩ := Text.exists_blank_append_trimStart behind
      rw [← behind_eq, List.drop_left] at rest_eq
      refine ⟨rest, ⟨gap, gap', ?_, ?_, blank, blank', Identifier.isValid_of_leading? leads⟩, found⟩
      · rw [start, gap_eq, ← behind_eq, gap_eq', rest_eq, List.singleton_append]
      · rintro rfl
        exact some_gap (by rw [List.nil_append] at gap_eq; rw [← gap_eq])
  · rintro ⟨rest, ⟨gap, gap', start, some_gap, blank, blank', valid⟩, found⟩
    obtain ⟨n, name', rfl⟩ : ∃ n name', name = n :: name' :=
      List.exists_cons_of_ne_nil (by rintro rfl; simp [Identifier.isValid] at valid)
    have solid : Text.isBlank n = false :=
      not_isBlank_of_isPart (isPart_of_isValid valid n (by simp))
    have ends : ∀ u ∈ (gap' ++ equals :: rest).head?, Identifier.isPart u = false := by
      cases gap' with
      | nil => simp; decide
      | cons b gap' =>
        intro u mem
        obtain rfl : b = u := by simpa using mem
        refine Bool.eq_false_iff.2 fun part => ?_
        simp [not_isBlank_of_isPart part] at blank'
    have trimmed (x : Text) : Text.trimStart (gap ++ (n :: name' ++ x)) = n :: name' ++ x := by
      rw [Text.trimStart_append blank, List.cons_append, Text.trimStart_of_solid solid]
    have trimmed' : Text.trimStart (gap' ++ equals :: rest) = equals :: rest := by
      rw [Text.trimStart_append blank', Text.trimStart_of_solid isBlank_equals]
    simp only [binding?, Option.bind_eq_bind, Option.bind_eq_some_iff, after?_eq_some_iff,
      ofString_equals]
    refine ⟨_, start, ?_⟩
    have longer : (n :: name' ++ (gap' ++ equals :: rest)).length ≠
        (gap ++ (n :: name' ++ (gap' ++ equals :: rest))).length := by
      have := List.length_pos_iff.2 some_gap
      simp only [List.length_append]
      omega
    rw [trimmed, if_neg longer]
    simp only [Option.bind_eq_some_iff, after?_eq_some_iff]
    exact ⟨_, leading?_append valid ends,
      rest, by rw [List.drop_left, trimmed']; rfl, value, found, rfl⟩

theorem inclusion?_eq_some_iff : inclusion? line = some (path, value) ↔
    ∃ rest, IsInclusion (Text.trimStart line) path rest ∧ restOfLine? rest = some value := by
  constructor
  · intro found
    simp only [inclusion?, Option.bind_eq_bind, Option.bind_eq_some_iff, after?_eq_some_iff,
      ofString_mark, unit_mark] at found
    obtain ⟨t, start, found⟩ := found
    by_cases some_gap : (Text.trimStart t).length = t.length
    · simp [some_gap] at found
    · simp only [some_gap, if_false, Option.bind_eq_some_iff, after?_eq_some_iff] at found
      obtain ⟨behind, behind_eq, rest, rest_eq, value', found, same⟩ := found
      obtain ⟨rfl, rfl⟩ : _ = path ∧ value' = value := by simpa using same
      obtain ⟨gap, blank, gap_eq⟩ := Text.exists_blank_append_trimStart t
      rw [Text.drop_length_takeWhile] at rest_eq
      refine ⟨rest, ⟨gap, ?_, ?_, blank, fun u => Text.of_mem_takeWhile⟩, found⟩
      · have parts := List.takeWhile_append_dropWhile (p := (· != mark)) (l := behind)
        rw [rest_eq] at parts
        rw [start, gap_eq, behind_eq, List.singleton_append]
        conv => lhs; rw [← parts]
        simp
      · rintro rfl
        exact some_gap (by rw [List.nil_append] at gap_eq; rw [← gap_eq])
  · rintro ⟨rest, ⟨gap, start, some_gap, blank, inner⟩, found⟩
    have trimmed : Text.trimStart (gap ++ mark :: (path ++ mark :: rest)) =
        mark :: (path ++ mark :: rest) := by
      rw [Text.trimStart_append blank, Text.trimStart_of_solid isBlank_mark]
    have longer : (mark :: (path ++ mark :: rest)).length ≠
        (gap ++ mark :: (path ++ mark :: rest)).length := by
      have := List.length_pos_iff.2 some_gap
      simp only [List.length_append]
      omega
    simp only [inclusion?, Option.bind_eq_bind, Option.bind_eq_some_iff, after?_eq_some_iff,
      ofString_mark, unit_mark]
    refine ⟨_, start, ?_⟩
    rw [trimmed, if_neg longer]
    simp only [Option.bind_eq_some_iff, after?_eq_some_iff]
    have path_eq : (path ++ mark :: rest).takeWhile (· != mark) = path :=
      Text.takeWhile_append_cons inner (by simp) rest
    exact ⟨path ++ mark :: rest, rfl, rest, by rw [path_eq, List.drop_left]; rfl, value, found,
      by rw [path_eq]⟩

/-- Whether a line is a directive line depends on its words, and on the line separators in it. -/
theorem IsBinding.of_respaced (binding : IsBinding b name rest) (h : Respaced a b) :
    ∃ rest', IsBinding a name rest' := by
  obtain ⟨gap, gap', rfl, some_gap, blank, blank', valid⟩ := binding
  obtain ⟨n, name', rfl⟩ : ∃ n name', name = n :: name' :=
    List.exists_cons_of_ne_nil (by rintro rfl; simp [Identifier.isValid] at valid)
  have solid : ∀ u ∈ n :: name', Text.isBlank u = false := fun u mem =>
    not_isBlank_of_isPart (isPart_of_isValid valid u mem)
  rw [List.cons_append] at h
  obtain ⟨a, rfl, h₁⟩ := h.of_word (solid_keyword _)
  obtain ⟨g, a, rfl, g_blank, g_nil, h₂⟩ := h₁.of_gap blank (solid n (by simp))
  obtain ⟨a, rfl, h₃⟩ := h₂.of_word fun u mem => solid u (by simp [mem])
  obtain ⟨g', a, rfl, g_blank', -, -⟩ := h₃.of_gap blank' isBlank_equals
  exact ⟨a, g, g', by simp, by simpa [g_nil] using some_gap, g_blank, g_blank', valid⟩

theorem IsInclusion.of_respaced (inclusion : IsInclusion b path rest) (h : Respaced a b) :
    ∃ path' rest', IsInclusion a path' rest' := by
  obtain ⟨gap, rfl, some_gap, blank, inner⟩ := inclusion
  obtain ⟨a, rfl, h₁⟩ := h.of_word (solid_keyword _)
  obtain ⟨g, a, rfl, g_blank, g_nil, behind⟩ := h₁.of_gap blank isBlank_mark
  -- the closing quotation mark is somewhere behind, the first one there closes the path
  have closed : mark ∈ a := behind.mem isBlank_mark (by simp)
  obtain ⟨rest', eq⟩ : ∃ rest', a.dropWhile (· != mark) = mark :: rest' := by
    have first := List.head?_dropWhile_not (· != mark) a
    cases eq : a.dropWhile (· != mark) with
    | nil =>
      rw [← List.takeWhile_append_dropWhile (p := (· != mark)) (l := a), eq,
        List.append_nil] at closed
      simpa using Text.of_mem_takeWhile closed
    | cons v rest' => exact ⟨rest', by simpa [eq] using first⟩
  refine ⟨a.takeWhile (· != mark), rest', g, ?_, by simpa [g_nil] using some_gap, g_blank,
    fun u => Text.of_mem_takeWhile⟩
  rw [← eq, List.takeWhile_append_dropWhile]

/-! ## Kinds of lines -/

theorem ofString_slashes : Text.ofString "//" = [47, 47] := by decide

theorem kindOf_eq_blank_iff : kindOf line = .blank ↔ Blank line := by
  rw [← Text.trimStart_eq_nil_iff, ← List.isEmpty_iff]
  unfold kindOf
  grind

theorem kindOf_eq_heading_iff :
    kindOf line = .heading ↔ ∃ tail, Text.trimStart line = equals :: tail := by
  unfold kindOf
  cases Text.trimStart line with
  | nil => simp
  | cons u t =>
    have starts : Text.startsWith (u :: t) "=" ↔ u = equals := by
      simp only [Text.startsWith, ofString_equals, List.isPrefixOf]
      grind
    have slashes : Text.startsWith (u :: t) "//" → u = 47 := by
      simp only [Text.startsWith, ofString_slashes, List.isPrefixOf]
      grind
    grind

theorem kindOf_eq_text_iff : kindOf line = .text ↔ ¬ Blank line ∧
    (Text.trimStart line).startsWith "//" = false ∧ (Text.trimStart line).startsWith "=" = false ∧
      directive? line = none := by
  rw [← Text.trimStart_eq_nil_iff, ← List.isEmpty_iff, ← Option.not_isSome_iff_eq_none]
  unfold kindOf
  grind

theorem kindOf_eq_directive (h : kindOf line = .directive) : ∃ p, directive? line = some p := by
  rw [← Option.isSome_iff_exists]
  unfold kindOf at h
  grind

/-! ## Headings and directives -/

structure HasLayout (width : Int) (line : Text) : Prop where
  trimmed : Text.trimEnd line = line
  ne_nil : line ≠ []
  format_eq : format width line = [line]

def behind (t : Text) : Text := if t.isEmpty then [] else Text.unit ' ' :: t

theorem spaced_eq (a b : Text) : spaced a b = a ++ behind b := by
  unfold spaced behind
  split <;> simp

theorem restOfLine?_behind (start : Text.trimStart value = value)
    (whole : value.any isSeparator = false) : restOfLine? (behind value) = some value := by
  rw [restOfLine?_eq_some_iff]
  refine ⟨?_, whole⟩
  unfold behind
  split
  next h => simp [List.isEmpty_iff.1 h]
  next h =>
    rw [← List.singleton_append, Text.trimStart_append (by simp [Text.isBlank_space]), start]

theorem trimEnd_spaced (trimmed : value = [] → Text.trimEnd a = a)
    (trimmed' : Text.trimEnd value = value) :
    Text.trimEnd (spaced a value) = spaced a value := by
  unfold spaced
  split
  next h => exact trimmed (List.isEmpty_iff.1 h)
  next h =>
    rw [← List.singleton_append, ← List.append_assoc]
    exact Text.trimEnd_append_eq_self _ (by simpa using h) trimmed'

theorem trimEnd_restOfLine? (found : restOfLine? rest = some value)
    (trimmed : Text.trimEnd rest = rest) :
    Text.trimEnd value = value := by
  obtain ⟨gap, -, eq⟩ := Text.exists_blank_append_trimStart rest
  rw [(restOfLine?_eq_some_iff.1 found).1] at eq
  exact Text.trimEnd_eq_self_of_append (a := gap) (by rw [← eq, trimmed])

/-- A heading line without its indentation: equals signs, and what stands behind them. -/
structure IsHeading (t marks tail : Text) : Prop where
  eq : t = marks ++ tail
  ne_nil : marks ≠ []
  inside : ∀ u ∈ marks, u = equals
  ends : ∀ u ∈ tail.head?, u ≠ equals

theorem exists_isHeading (kind : kindOf line = .heading) :
    ∃ marks tail, IsHeading (Text.trimStart line) marks tail := by
  obtain ⟨tail, start⟩ := kindOf_eq_heading_iff.1 kind
  refine ⟨equals :: tail.takeWhile (· == equals), tail.dropWhile (· == equals), ?_, by simp, ?_, ?_⟩
  · rw [start, List.cons_append, List.takeWhile_append_dropWhile]
  · intro u mem
    rcases List.mem_cons.1 mem with rfl | mem
    · rfl
    · simpa using Text.of_mem_takeWhile mem
  · intro u mem
    have first := List.head?_dropWhile_not (· == equals) tail
    simpa [Option.mem_def.1 mem] using first

namespace IsHeading

variable {marks tail title : Text}

theorem kindOf_eq (h : IsHeading (Text.trimStart line) marks tail) : kindOf line = .heading := by
  obtain ⟨u, marks, rfl⟩ := List.exists_cons_of_ne_nil h.ne_nil
  obtain rfl := h.inside u (by simp)
  exact kindOf_eq_heading_iff.2 ⟨marks ++ tail, h.eq⟩

theorem takeWhile_eq (h : IsHeading t marks tail) : t.takeWhile (· == equals) = marks := by
  have inside : ∀ u ∈ marks, (u == equals) = true := fun u mem => beq_iff_eq.2 (h.inside u mem)
  rw [h.eq]
  cases tail with
  | nil => simpa using Text.takeWhile_eq_self inside
  | cons u tail => exact Text.takeWhile_append_cons inside (by simpa using h.ends u (by simp)) tail

theorem dropWhile_eq (h : IsHeading t marks tail) : t.dropWhile (· == equals) = tail := by
  rw [← Text.drop_length_takeWhile, h.takeWhile_eq, h.eq, List.drop_left]

theorem heading_eq (h : IsHeading (Text.trimStart line) marks tail) :
    heading line = ((restOfLine? tail).map (spaced marks)).getD line := by
  have marks_eq := h.takeWhile_eq
  have tail_eq : (Text.trimStart line).drop marks.length = tail := by rw [h.eq, List.drop_left]
  simp only [heading, unit_equals, marks_eq, tail_eq]
  cases restOfLine? tail <;> rfl

theorem solid (h : IsHeading t marks tail) : ∀ u ∈ marks, Text.isBlank u = false := fun u mem =>
  h.inside u mem ▸ isBlank_equals

/-- The layout of a heading is a heading with the same equals signs. -/
theorem spaced_title (h : IsHeading t marks tail) (title : Text) :
    IsHeading (Text.trimStart (spaced marks title)) marks (behind title) := by
  obtain ⟨m, marks', marks_eq⟩ := List.exists_cons_of_ne_nil h.ne_nil
  have start : Text.trimStart (spaced marks title) = spaced marks title := by
    rw [spaced_eq, marks_eq, List.cons_append,
      Text.trimStart_of_solid (h.solid m (by simp [marks_eq]))]
  refine ⟨by rw [start, spaced_eq], h.ne_nil, h.inside, ?_⟩
  unfold behind
  split
  · simp
  · simp
    decide

end IsHeading

theorem hasLayout_heading (trimmed : Text.trimEnd line = line) (kind : kindOf line = .heading) :
    HasLayout width (heading line) := by
  obtain ⟨marks, tail, h⟩ := exists_isHeading kind
  cases found : restOfLine? tail with
  | none =>
    have same : heading line = line := by simp [h.heading_eq, found]
    rw [same]
    refine ⟨trimmed, ?_, by simp [format, kind, same]⟩
    rintro rfl
    simpa [h.ne_nil] using h.eq
  | some title =>
    have trimmed' : Text.trimEnd tail = tail := by
      obtain ⟨gap, -, line_eq⟩ := Text.exists_blank_append_trimStart line
      refine Text.trimEnd_eq_self_of_append (a := gap ++ marks) ?_
      rw [List.append_assoc, ← h.eq, ← line_eq, trimmed]
    have again := h.spaced_title title
    have layout : heading line = spaced marks title := by simp [h.heading_eq, found]
    rw [layout]
    refine ⟨trimEnd_spaced (fun _ => ?_) (trimEnd_restOfLine? found trimmed'), ?_, ?_⟩
    · exact Text.trimEnd_eq_self_iff.2 fun u last => h.solid u (List.mem_of_mem_getLast? last)
    · simp [spaced_eq, h.ne_nil]
    · simp [format, again.kindOf_eq, again.heading_eq, restOfLine?_behind
        (trimStart_of_restOfLine? found) (restOfLine?_eq_some_iff.1 found).2]

/-! ### Directives -/

abbrev bindingLine (name value : Text) : Text :=
  spaced (keyword .binding ++ " " ++ name ++ " =") value

abbrev inclusionLine (path value : Text) : Text :=
  spaced (keyword .inclusion ++ " \"" ++ path ++ "\"") value

theorem bindingLine_eq (name value : Text) : bindingLine name value = keyword .binding ++
    ([Text.unit ' '] ++ (name ++ ([Text.unit ' '] ++ equals :: behind value))) := by
  have space : Text.ofString " " = [Text.unit ' '] := by decide
  have closing : Text.ofString " =" = [Text.unit ' ', equals] := by decide
  simp [bindingLine, spaced_eq, space, closing]

theorem inclusionLine_eq (path value : Text) : inclusionLine path value = keyword .inclusion ++
    ([Text.unit ' '] ++ mark :: (path ++ mark :: behind value)) := by
  have opening : Text.ofString " \"" = [Text.unit ' ', mark] := by decide
  simp [inclusionLine, spaced_eq, opening, ofString_mark]

theorem isBinding_bindingLine (valid : Identifier.isValid name) (value : Text) :
    IsBinding (bindingLine name value) name (behind value) :=
  ⟨[Text.unit ' '], [Text.unit ' '],
    bindingLine_eq name value, by simp, by simp [Text.isBlank_space],
    by simp [Text.isBlank_space], valid⟩

theorem isInclusion_inclusionLine (inner : ∀ u ∈ path, (u != mark) = true) (value : Text) :
    IsInclusion (inclusionLine path value) path (behind value) :=
  ⟨[Text.unit ' '], inclusionLine_eq path value, by simp, by simp [Text.isBlank_space], inner⟩

theorem directive?_eq_some_iff : directive? line = some t ↔
    (∃ name value, binding? line = some (name, value) ∧ t = bindingLine name value) ∨
      binding? line = none ∧
        ∃ path value, inclusion? line = some (path, value) ∧ t = inclusionLine path value := by
  unfold directive?
  constructor
  · intro found
    split at found
    next name value eq => exact .inl ⟨name, value, eq, (Option.some.inj found).symm⟩
    next eq =>
      split at found
      next path value eq' => exact .inr ⟨eq, path, value, eq', (Option.some.inj found).symm⟩
      next => simp at found
  · rintro (⟨name, value, eq, rfl⟩ | ⟨eq, path, value, eq', rfl⟩)
    · simp only [eq]
    · simp only [eq, eq']

theorem kindOf_eq_directive_of (start : Text.trimStart line = keyword d ++ rest)
    (found : directive? line = some t) : kindOf line = .directive := by
  have head : ∃ tail, Text.trimStart line = 35 :: tail := by
    cases d
    · exact ⟨_, by rw [start, keyword_binding]; rfl⟩
    · exact ⟨_, by rw [start, keyword_inclusion]; rfl⟩
  obtain ⟨tail, eq⟩ := head
  have slashes : Text.startsWith (35 :: tail) "//" = false := by
    rw [ofString_slashes]; rfl
  have marks : Text.startsWith (35 :: tail) "=" = false := by
    rw [ofString_equals]; rfl
  simp [kindOf, eq, slashes, marks, found]

theorem HasLayout.of_directive (layout : t = keyword d ++ rest) (trimmed : Text.trimEnd t = t)
    (same : directive? t = some t) : HasLayout width t := by
  have start : Text.trimStart t = keyword d ++ rest := by
    rw [layout]; cases d <;> rfl
  have kind := kindOf_eq_directive_of start same
  refine ⟨trimmed, ?_, by simp [format, kind, same]⟩
  rintro rfl
  cases d <;> simp [keyword_binding, keyword_inclusion] at layout

theorem hasLayout_directive (trimmed : Text.trimEnd line = line)
    (found : directive? line = some t) :
    HasLayout width t := by
  obtain ⟨gap, -, line_eq⟩ := Text.exists_blank_append_trimStart line
  have trimmed' {rest : Text} (within : rest <:+ Text.trimStart line) :
      Text.trimEnd rest = rest := by
    obtain ⟨front, eq⟩ := within
    refine Text.trimEnd_eq_self_of_append (a := gap ++ front) ?_
    rw [List.append_assoc, eq, ← line_eq, trimmed]
  have start_eq (d : Directive) (x : Text) : Text.trimStart (keyword d ++ x) = keyword d ++ x := by
    cases d <;> rfl
  rcases directive?_eq_some_iff.1 found with ⟨name, value, eq, rfl⟩ | ⟨-, path, value, eq, rfl⟩
  · obtain ⟨rest, binding, found'⟩ := binding?_eq_some_iff.1 eq
    have again := isBinding_bindingLine binding.valid value
    obtain ⟨_, _, layout, -⟩ := id again
    have ends := trimmed' binding.suffix
    refine .of_directive layout (trimEnd_spaced (fun _ => ?_) (trimEnd_restOfLine? found' ends)) ?_
    · have closing : Text.ofString " =" = [Text.unit ' ', equals] := by decide
      simp [Text.trimEnd_eq_self_iff, closing, isBlank_equals]
    · refine directive?_eq_some_iff.2 (.inl ⟨name, value, binding?_eq_some_iff.2 ⟨_, ?_,
        restOfLine?_behind (trimStart_of_restOfLine? found') (restOfLine?_eq_some_iff.1 found').2⟩,
          rfl⟩)
      rwa [layout, start_eq, ← layout]
  · obtain ⟨rest, inclusion, found'⟩ := inclusion?_eq_some_iff.1 eq
    have again := isInclusion_inclusionLine inclusion.inner value
    obtain ⟨_, layout, -⟩ := id again
    have ends := trimmed' inclusion.suffix
    have none : binding? (inclusionLine path value) = none := by
      rw [Option.eq_none_iff_forall_ne_some]
      rintro ⟨name, value'⟩ found
      obtain ⟨_, ⟨_, _, parts', -⟩, -⟩ := binding?_eq_some_iff.1 found
      rw [layout, start_eq, keyword_binding, keyword_inclusion] at parts'
      simp at parts'
    refine .of_directive layout (trimEnd_spaced (fun _ => ?_) (trimEnd_restOfLine? found' ends)) ?_
    · simp [Text.trimEnd_eq_self_iff, ofString_mark, isBlank_mark]
    · refine directive?_eq_some_iff.2 (.inr ⟨none, path, value, inclusion?_eq_some_iff.2 ⟨_, ?_,
        restOfLine?_behind (trimStart_of_restOfLine? found') (restOfLine?_eq_some_iff.1 found').2⟩,
          rfl⟩)
      rwa [layout, start_eq, ← layout]

theorem directive?_eq_none (other : ∀ d, (Text.trimStart line).startsWith (keyword d) = false) :
    directive? line = none := by
  rw [Option.eq_none_iff_forall_ne_some]
  intro t found
  have starts {d x} (eq : Text.trimStart line = keyword d ++ x) : False := by
    have := other d
    rw [Text.startsWith, List.isPrefixOf_iff_prefix.2 ⟨x, eq.symm⟩] at this
    simp at this
  rcases directive?_eq_some_iff.1 found with ⟨_, _, eq, -⟩ | ⟨-, _, _, eq, -⟩
  · obtain ⟨_, ⟨_, _, start, -⟩, -⟩ := binding?_eq_some_iff.1 eq
    exact starts start
  · obtain ⟨_, ⟨_, start, -⟩, -⟩ := inclusion?_eq_some_iff.1 eq
    exact starts start

/-- Without line separators, a line whose first words are a directive line is one itself. -/
theorem directive?_isSome_of_respaced (whole : line.any isSeparator = false)
    (h : Respaced (Text.trimStart line) (Text.trimStart t)) (found : (directive? t).isSome) :
    (directive? line).isSome := by
  obtain ⟨gap, -, line_eq⟩ := Text.exists_blank_append_trimStart line
  have rest_some {x : Text} (within : x <:+ Text.trimStart line) : ∃ value,
      restOfLine? x = some value := by
    refine ⟨_, restOfLine?_eq_some_iff.2 ⟨rfl, ?_⟩⟩
    obtain ⟨front, eq⟩ := within
    obtain ⟨g, -, x_eq⟩ := Text.exists_blank_append_trimStart x
    rw [line_eq, ← eq, x_eq] at whole
    simp only [List.any_append, Bool.or_eq_false_iff] at whole
    exact whole.2.2.2
  obtain ⟨p, found⟩ := Option.isSome_iff_exists.1 found
  rcases directive?_eq_some_iff.1 found with ⟨name, _, eq, -⟩ | ⟨-, path, _, eq, -⟩
  · obtain ⟨_, binding, -⟩ := binding?_eq_some_iff.1 eq
    obtain ⟨rest, binding⟩ := binding.of_respaced h
    obtain ⟨value, found⟩ := rest_some binding.suffix
    have := binding?_eq_some_iff.2 ⟨_, binding, found⟩
    simp [directive?, this]
  · obtain ⟨_, inclusion, -⟩ := inclusion?_eq_some_iff.1 eq
    obtain ⟨path, rest, inclusion⟩ := inclusion.of_respaced h
    obtain ⟨value, found⟩ := rest_some inclusion.suffix
    have := inclusion?_eq_some_iff.2 ⟨_, inclusion, found⟩
    unfold directive?
    split
    · rfl
    · simp [this]

end Quill.Layout

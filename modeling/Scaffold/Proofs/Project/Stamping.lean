import Scaffold.Proofs.Project.References
import Scaffold.Proofs.Text.Stretches

/-! # Stamping a name

The name of a project takes the place of the first title of its page and of the first heading of its description. What is
written there is again the first title and the first heading, so that the name can be stamped once more without any change.
A line feed at the end of a name breaks this, because the heading then takes up one more line each time.
-/

namespace Scaffold.Project

open Scaffold.Text Scaffold.Files Scaffold.Json Stateful Pattern

variable {name : String} {text front title rest : List Char}

/-! ## Titles -/

/-- The tag in front of a title. -/
def openTag : List Char := "<title>".toList

/-- The tag behind a title. -/
def closeTag : List Char := "</title>".toList

/-- The first title of a text is what stands between the first opening tag and the next closing tag. -/
structure IsTitle (text front title rest : List Char) : Prop where
  split : text = front ++ (openTag ++ (title ++ (closeTag ++ rest)))
  first : ∀ earlier later, text = earlier ++ (openTag ++ later) → front.length ≤ earlier.length
  next : ∀ earlier later, title ++ (closeTag ++ rest) = earlier ++ (closeTag ++ later) → title.length ≤ earlier.length

theorem IsTitle.unique {front' title' rest' : List Char} (isTitle : IsTitle text front title rest)
    (other : IsTitle text front' title' rest') : front' = front ∧ title' = title ∧ rest' = rest := by
  have fronts : front'.length = front.length :=
    Nat.le_antisymm (other.first _ _ isTitle.split) (isTitle.first _ _ other.split)
  obtain ⟨rfl, behind⟩ := List.append_inj (other.split.symm.trans isTitle.split) fronts
  have inner := List.append_cancel_left behind
  have titles : title'.length = title.length :=
    Nat.le_antisymm (other.next _ _ inner) (isTitle.next _ _ inner.symm)
  obtain ⟨rfl, others⟩ := List.append_inj inner titles
  exact ⟨rfl, rfl, List.append_cancel_left others⟩

theorem ends_titlePattern_ne_nil (before : Option Char) (between behind : List Char) :
    titlePattern.ends ⟨before, openTag ++ (between ++ (closeTag ++ behind))⟩ ≠ [] := by
  intro none_
  refine ends_eq_nil_iff.mp none_ (openTag ++ (between ++ closeTag)) behind (by simp) ?_
  refine matches_seq_iff.mpr ⟨openTag, between ++ closeTag, rfl, matches_literal_iff.mpr rfl, ?_⟩
  exact matches_seq_iff.mpr ⟨between, closeTag, rfl, matches_few_iff.mpr fun _ _ => rfl, matches_literal_iff.mpr rfl⟩

/-- A match takes an opening tag, and what follows up to the next closing tag. -/
theorem exists_of_matchLength?_titlePattern {before : Option Char} {length : Nat}
    (found : titlePattern.matchLength? before text = some length) :
    ∃ title rest, text = openTag ++ (title ++ (closeTag ++ rest)) ∧ length = (openTag ++ (title ++ closeTag)).length ∧
      ∀ earlier later, title ++ (closeTag ++ rest) = earlier ++ (closeTag ++ later) → title.length ≤ earlier.length := by
  obtain ⟨spot, head, rfl⟩ := Option.map_eq_some_iff.mp found
  obtain ⟨taken, split, -, matched⟩ := exists_matches_of_mem_ends (List.mem_of_mem_head? head)
  obtain ⟨tag, behind, rfl, tagged, -⟩ := matches_seq_iff.mp matched
  obtain rfl : tag = openTag := matches_literal_iff.mp tagged
  dsimp only at split
  rw [List.append_assoc] at split
  have step : titlePattern.ends ⟨before, openTag ++ (behind ++ spot.rest)⟩ =
      (seq (few fun _ => true) (Pattern.literal closeTag)).ends ⟨openTag.getLast?.or before, behind ++ spot.rest⟩ :=
    ends_seq_literal openTag before _
  rw [split, step] at head
  obtain ⟨title, tail, eq, closes, next⟩ := exists_of_head?_ends_seq_few head
  obtain ⟨tag, closed, -, ends⟩ := exists_matches_of_mem_ends (List.mem_of_mem_head? closes)
  obtain rfl : tag = closeTag := matches_literal_iff.mp ends
  dsimp only at closed
  subst closed
  refine ⟨title, spot.rest, by rw [split, eq], ?_, fun earlier later same => ?_⟩
  · rw [split, eq]
    simp only [List.length_append]
    omega
  · by_contra short
    have none_ := next earlier (closeTag ++ later) (eq.trans same) (Nat.lt_of_not_le short)
    rw [ends_literal] at none_
    cases none_

/-- A text in which an opening tag has a closing tag behind it has a title, which the name takes the place of. -/
theorem exists_isTitle_of_occurs (name : String) (occurs : titlePattern.occursFrom none text = true) :
    ∃ front title rest, IsTitle text front title rest ∧
      stampTitle name text = front ++ (openTag ++ (name.toList ++ (closeTag ++ rest))) := by
  have taking (before : Option Char) (text : List Char) : titlePattern.matchLength? before text ≠ some 0 := by
    intro found
    obtain ⟨title, rest, -, size, -⟩ := exists_of_matchLength?_titlePattern found
    cases size
  obtain ⟨front, taken, rest, rfl, matched, leftmost, replaced⟩ :=
    replaceFrom_of_occursFrom (fun _ => ("<title>" ++ name ++ "</title>").toList) taking occurs
  obtain ⟨title, behind, split, size, next⟩ := exists_of_matchLength?_titlePattern matched
  obtain ⟨rfl, rfl⟩ : taken = openTag ++ (title ++ closeTag) ∧ rest = behind := by
    refine List.append_inj ?_ size
    rw [split]
    simp
  refine ⟨front, title, rest, ⟨by simp, fun earlier later same => ?_, next⟩, ?_⟩
  · -- A closing tag follows the first opening tag, so every earlier one would be the beginning of a match as well.
    by_contra short
    have shorter := Nat.lt_of_not_le short
    have none_ := leftmost earlier (openTag ++ later) same shorter
    have sizes := congrArg List.length same
    simp only [List.length_append] at sizes
    have reaches : closeTag ++ rest <:+ later := by
      refine @List.suffix_of_suffix_length_le _ _ (front ++ (openTag ++ (title ++ closeTag) ++ rest)) _ ?_ ?_ ?_
      · exact ⟨front ++ (openTag ++ title), by simp⟩
      · exact ⟨earlier ++ openTag, by rw [same]; simp⟩
      · rw [List.length_append]
        omega
    obtain ⟨between, rfl⟩ := reaches
    exact ends_titlePattern_ne_nil _ between rest none_
  · have written : ("<title>" ++ name ++ "</title>").toList = openTag ++ (name.toList ++ closeTag) := by
      rw [String.toList_append, String.toList_append, List.append_assoc]
      rfl
    refine (show stampTitle name _ = _ from replaced).trans ?_
    rw [written, List.append_assoc, List.append_assoc]

/-- Where a word begins with a mark that it has only once, it does not reach into a place that begins with the mark. -/
theorem exists_of_marked {mark : Char} {tail earlier behind later : List Char} (once : mark ∉ tail)
    (same : front ++ mark :: behind = earlier ++ (mark :: (tail ++ later))) (short : earlier.length < front.length) :
    ∃ between, front = earlier ++ (mark :: (tail ++ between)) := by
  rcases List.append_eq_append_iff.mp same with ⟨extra, eq, -⟩ | ⟨extra, rfl, eq⟩
  · rw [eq, List.length_append] at short
    omega
  · cases extra with
    | nil =>
      rw [List.append_nil] at short
      exact absurd short (Nat.lt_irrefl _)
    | cons first extra =>
      obtain ⟨rfl, inner⟩ := List.cons.inj eq
      rcases List.append_eq_append_iff.mp inner with ⟨between, rfl, -⟩ | ⟨more, rfl, others⟩
      · exact ⟨between, rfl⟩
      · cases more with
        | nil => exact ⟨[], by simp⟩
        | cons c more =>
          obtain ⟨rfl, -⟩ := List.cons.inj others
          exact absurd (List.mem_append_right extra List.mem_cons_self) once

/-- A name without a tag takes the place of a title. -/
theorem IsTitle.stamp {name : List Char} (isTitle : IsTitle text front title rest) (plain : '<' ∉ name) :
    IsTitle (front ++ (openTag ++ (name ++ (closeTag ++ rest)))) front name rest := by
  refine ⟨rfl, fun earlier later same => ?_, fun earlier later same => ?_⟩
  · by_contra short
    have once : '<' ∉ openTag.tail := by decide
    obtain ⟨between, eq⟩ := exists_of_marked once same (Nat.lt_of_not_le short)
    refine short (isTitle.first earlier (between ++ (openTag ++ (title ++ (closeTag ++ rest)))) ?_)
    rw [isTitle.split, eq, List.append_assoc]
    exact congrArg (earlier ++ ·) (List.append_assoc openTag between _)
  · by_contra short
    have once : '<' ∉ closeTag.tail := by decide
    obtain ⟨between, rfl⟩ := exists_of_marked once same (Nat.lt_of_not_le short)
    exact plain (List.mem_append_right earlier List.mem_cons_self)

/-- The name takes the place of the first title, and of nothing where there is none. -/
inductive Retitled (name : List Char) (text : List Char) : List Char → Prop
  | untitled (none_ : ∀ front title rest, ¬ IsTitle text front title rest) : Retitled name text text
  | titled {front title rest changed : List Char} (isTitle : IsTitle text front title rest)
      (stamped : IsTitle changed front name rest) : Retitled name text changed

theorem retitled_stampTitle (plain : '<' ∉ name.toList) (text : List Char) : Retitled name.toList text (stampTitle name text) := by
  cases occurs : titlePattern.occursFrom none text with
  | true =>
    obtain ⟨front, title, rest, isTitle, stamped⟩ := exists_isTitle_of_occurs name occurs
    exact stamped ▸ .titled isTitle (isTitle.stamp plain)
  | false =>
    rw [stampTitle, Pattern.replaceFirst, replaceFrom_of_occursFrom_eq_false _ _ occurs]
    refine .untitled fun front title rest isTitle => ?_
    have found : titlePattern.occursFrom none text = true := by
      refine occursFrom_eq_true_iff.mpr ⟨front, _, isTitle.split, ?_⟩
      exact ends_titlePattern_ne_nil _ title rest
    rw [occurs] at found
    cases found

/-- A title that has been stamped is stamped again without any change. -/
theorem stampTitle_stampTitle (plain : '<' ∉ name.toList) (text : List Char) :
    stampTitle name (stampTitle name text) = stampTitle name text := by
  by_cases same : stampTitle name text = text
  · rw [same, same]
  have once := retitled_stampTitle plain text
  have twice := retitled_stampTitle plain (stampTitle name text)
  generalize stampTitle name (stampTitle name text) = again at twice ⊢
  generalize stampTitle name text = stamped at once twice same ⊢
  cases once with
  | untitled none_ => exact absurd rfl same
  | titled _ is =>
    cases twice with
    | untitled => rfl
    | titled isTitle others =>
      obtain ⟨rfl, rfl, rfl⟩ := is.unique isTitle
      exact others.split.trans isTitle.split.symm

/-! ## Headings -/

variable {line heading : List Char} {before after lines : List (List Char)}

/-- Lines as a text. -/
def joined (lines : List (List Char)) : List Char := ['\n'].intercalate lines

/-- The first heading of a text is the first of its lines that is one. -/
structure IsFirstHeading (text : List Char) (before : List (List Char)) (heading : List Char) (after : List (List Char)) :
    Prop where
  lines : text.splitOn '\n' = before ++ heading :: after
  isHeading : isHeading heading = true
  first : ∀ line ∈ before, Project.isHeading line = false

theorem splitOn_cons (c : Char) (text : List Char) : (c :: text).splitOn '\n' =
    if c = '\n' then [] :: text.splitOn '\n' else (text.splitOn '\n').modifyHead (c :: ·) := by
  rw [List.splitOn, List.splitOnP_cons_eq_if_modifyHead]
  simp only [beq_iff_eq]
  rfl

theorem feed_notMem_of_mem_splitOn (mem : line ∈ text.splitOn '\n') : '\n' ∉ line := by
  induction text generalizing line with
  | nil =>
    obtain rfl := List.mem_singleton.mp mem
    exact List.not_mem_nil
  | cons c text inside =>
    rw [splitOn_cons] at mem
    split at mem
    · rcases List.mem_cons.mp mem with rfl | mem
      · exact List.not_mem_nil
      · exact inside mem
    · next other =>
      cases split : text.splitOn '\n' with
      | nil => exact absurd split (List.splitOn_ne_nil _ _)
      | cons first later =>
        rw [split, List.modifyHead_cons] at mem
        rcases List.mem_cons.mp mem with rfl | mem
        · exact List.not_mem_cons_of_ne_of_not_mem (Ne.symm other) (inside (split ▸ List.mem_cons_self))
        · exact inside (split ▸ List.mem_cons_of_mem _ mem)

/-- What stands behind a line: nothing, or a line feed. -/
def EndsLine (rest : List Char) : Prop := ∀ c ∈ rest.head?, c = '\n'

theorem isHeading_append (ends : EndsLine rest) (line : List Char) : isHeading (line ++ rest) = isHeading line := by
  cases rest with
  | nil => rw [List.append_nil]
  | cons c rest =>
    obtain rfl := ends c rfl
    rcases line with _ | ⟨c, _ | ⟨d, line⟩⟩
    · rfl
    · by_cases mark : c = '#'
      · subst mark
        rfl
      · simp [isHeading, mark]
    · by_cases mark : c = '#'
      · subst mark
        rfl
      · simp [isHeading, mark]

/-- Within a line nothing is stamped. -/
theorem stampHeadingFrom_inside (name : List Char) (noFeed : '\n' ∉ line) (rest : List Char) :
    stampHeadingFrom name false (line ++ rest) = line ++ stampHeadingFrom name false rest := by
  induction line with
  | nil => rfl
  | cons c line inside =>
    obtain ⟨first, later⟩ := List.ne_and_not_mem_of_not_mem_cons noFeed
    rw [List.cons_append, stampHeadingFrom, if_neg (by simp), decide_eq_false (Ne.symm first), inside later]
    rfl

theorem stampHeadingFrom_of_endsLine (name : List Char) (ends : EndsLine rest) :
    stampHeadingFrom name true rest = stampHeadingFrom name false rest := by
  cases rest with
  | nil => rfl
  | cons c rest =>
    obtain rfl := ends c rfl
    rfl

/-- A line that is no heading is left. -/
theorem stampHeadingFrom_line (name : List Char) (noFeed : '\n' ∉ line) (other : isHeading line = false) (ends : EndsLine rest) :
    stampHeadingFrom name true (line ++ rest) = line ++ stampHeadingFrom name false rest := by
  cases line with
  | nil => exact stampHeadingFrom_of_endsLine name ends
  | cons c line =>
    obtain ⟨first, later⟩ := List.ne_and_not_mem_of_not_mem_cons noFeed
    have plain : ¬ (true && isHeading (c :: (line ++ rest))) = true := by
      rw [← List.cons_append, isHeading_append ends, other]
      decide
    rw [List.cons_append, stampHeadingFrom, if_neg plain, decide_eq_false (Ne.symm first), stampHeadingFrom_inside name later]
    rfl

/-- A line that is a heading makes way for the name. -/
theorem stampHeadingFrom_heading (name : List Char) (noFeed : '\n' ∉ heading) (is : isHeading heading = true) (ends : EndsLine rest) :
    stampHeadingFrom name true (heading ++ rest) = '#' :: ' ' :: name ++ rest := by
  cases heading with
  | nil => cases is
  | cons c line =>
    have here : (true && isHeading (c :: (line ++ rest))) = true := by
      rw [← List.cons_append, isHeading_append ends, is]
      rfl
    rw [List.cons_append, stampHeadingFrom, if_pos here, List.dropWhile_append_of_pos]
    · cases rest with
      | nil => rfl
      | cons d rest =>
        obtain rfl := ends d rfl
        rfl
    · intro d mem
      exact decide_eq_true fun same => noFeed (same ▸ List.mem_cons_of_mem c mem)

/-- The lines behind a line, as a text. -/
def behindLine : List (List Char) → List Char
  | [] => []
  | next :: later => '\n' :: joined (next :: later)

theorem joined_cons (line : List Char) (later : List (List Char)) : joined (line :: later) = line ++ behindLine later := by
  cases later with
  | nil => simp [joined, behindLine]
  | cons next later =>
    rw [joined, List.intercalate_cons_cons, List.append_assoc]
    rfl

theorem endsLine_behindLine (later : List (List Char)) : EndsLine (behindLine later) := by
  cases later with
  | nil => exact nofun
  | cons next later =>
    rintro c ⟨⟩
    rfl

theorem behindLine_of_ne_nil (some_ : lines ≠ []) : behindLine lines = '\n' :: joined lines := by
  cases lines with
  | nil => exact absurd rfl some_
  | cons next later => rfl

theorem joined_splitOn (text : List Char) : joined (text.splitOn '\n') = text := List.intercalate_splitOn '\n'

theorem splitOn_joined (noFeeds : ∀ line ∈ lines, '\n' ∉ line) (some_ : lines ≠ []) : (joined lines).splitOn '\n' = lines :=
  List.splitOn_intercalate '\n' noFeeds some_

theorem stampHeadingFrom_joined_cons (name : List Char) (noFeed : '\n' ∉ line) (other : isHeading line = false) (some_ : lines ≠ []) :
    stampHeadingFrom name true (joined (line :: lines)) = line ++ '\n' :: stampHeadingFrom name true (joined lines) := by
  rw [joined_cons, stampHeadingFrom_line name noFeed other (endsLine_behindLine _), behindLine_of_ne_nil some_]
  rfl

/-- A text without a heading is left. -/
theorem stampHeadingFrom_joined_of_none (name : List Char) (noFeeds : ∀ line ∈ lines, '\n' ∉ line)
    (none_ : ∀ line ∈ lines, isHeading line = false) : stampHeadingFrom name true (joined lines) = joined lines := by
  induction lines with
  | nil => rfl
  | cons line later left =>
    obtain ⟨noFeed, noFeeds⟩ := List.forall_mem_cons.mp noFeeds
    obtain ⟨other, none_⟩ := List.forall_mem_cons.mp none_
    cases later with
    | nil =>
      rw [joined_cons, stampHeadingFrom_line name noFeed other (endsLine_behindLine _)]
      rfl
    | cons next later =>
      rw [stampHeadingFrom_joined_cons name noFeed other (List.cons_ne_nil _ _), left noFeeds none_, joined_cons line]
      rfl

/-- The first heading makes way for the name. -/
theorem stampHeadingFrom_joined (name : List Char) (noFeeds : ∀ line ∈ before ++ heading :: after, '\n' ∉ line)
    (is : isHeading heading = true) (first : ∀ line ∈ before, isHeading line = false) :
    stampHeadingFrom name true (joined (before ++ heading :: after)) = joined (before ++ ('#' :: ' ' :: name) :: after) := by
  induction before with
  | nil =>
    obtain ⟨noFeed, -⟩ := List.forall_mem_cons.mp noFeeds
    rw [List.nil_append, List.nil_append, joined_cons, joined_cons,
      stampHeadingFrom_heading name noFeed is (endsLine_behindLine _)]
  | cons line before later =>
    obtain ⟨noFeed, noFeeds⟩ := List.forall_mem_cons.mp noFeeds
    obtain ⟨other, first⟩ := List.forall_mem_cons.mp first
    have some_ (heading : List Char) : before ++ heading :: after ≠ [] := by simp
    change stampHeadingFrom name true (joined (line :: (before ++ heading :: after))) = _
    rw [stampHeadingFrom_joined_cons name noFeed other (some_ heading), later noFeeds first, List.cons_append, joined_cons,
      behindLine_of_ne_nil (some_ _)]

theorem stampHeading_of_none (name : String) (none_ : ∀ line ∈ text.splitOn '\n', isHeading line = false) :
    stampHeading name text = text := by
  have left := stampHeadingFrom_joined_of_none name.toList (fun line => feed_notMem_of_mem_splitOn) none_
  rwa [joined_splitOn] at left

theorem IsFirstHeading.stampHeading_eq (is : IsFirstHeading text before heading after) (name : String) :
    stampHeading name text = joined (before ++ ('#' :: ' ' :: name.toList) :: after) := by
  have noFeeds : ∀ line ∈ before ++ heading :: after, '\n' ∉ line := by
    intro line mem
    rw [← is.lines] at mem
    exact feed_notMem_of_mem_splitOn mem
  rw [← stampHeadingFrom_joined name.toList noFeeds is.isHeading is.first, ← is.lines, joined_splitOn]
  rfl

theorem exists_isFirstHeading (some_ : ¬ ∀ line ∈ text.splitOn '\n', isHeading line = false) :
    ∃ before heading after, IsFirstHeading text before heading after := by
  have any : ∃ line ∈ text.splitOn '\n', isHeading line = true := by simpa using some_
  obtain ⟨heading, found⟩ := Option.isSome_iff_exists.mp (List.find?_isSome.mpr any)
  obtain ⟨is, before, after, lines, first⟩ := List.find?_eq_some_iff_append.mp found
  exact ⟨before, heading, after, lines, is, fun line mem => by simpa using first line mem⟩

/-- Lines that stand in place of the first heading, the first of which is a heading. -/
theorem IsFirstHeading.replace {head : List Char} {others : List (List Char)} (is : IsFirstHeading text before heading after)
    (heads : Project.isHeading head = true) (noFeed : '\n' ∉ head) (noFeeds : ∀ line ∈ others, '\n' ∉ line) :
    IsFirstHeading (joined (before ++ head :: (others ++ after))) before head (others ++ after) := by
  refine ⟨splitOn_joined (fun line mem => ?_) (by simp), heads, is.first⟩
  have each (line : List Char) (mem : line ∈ before ++ heading :: after) : '\n' ∉ line := by
    rw [← is.lines] at mem
    exact feed_notMem_of_mem_splitOn mem
  rcases List.mem_append.mp mem with mem | mem
  · exact each line (List.mem_append_left _ mem)
  · rcases List.mem_cons.mp mem with rfl | mem
    · exact noFeed
    · rcases List.mem_append.mp mem with mem | mem
      · exact noFeeds line mem
      · exact each line (List.mem_append_right _ (List.mem_cons_of_mem _ mem))

/-- The name takes the place of the text of the first heading, and of nothing where there is none. -/
inductive Reheaded (name : List Char) (text : List Char) : List Char → Prop
  | headless (none_ : ∀ line ∈ text.splitOn '\n', isHeading line = false) : Reheaded name text text
  | headed {before : List (List Char)} {heading : List Char} {after : List (List Char)} {changed : List Char}
      (is : IsFirstHeading text before heading after)
      (stamped : IsFirstHeading changed before ('#' :: ' ' :: name) after) : Reheaded name text changed

theorem reheaded_stampHeading (noFeed : '\n' ∉ name.toList) (text : List Char) :
    Reheaded name.toList text (stampHeading name text) := by
  by_cases none_ : ∀ line ∈ text.splitOn '\n', isHeading line = false
  · rw [stampHeading_of_none name none_]
    exact .headless none_
  · obtain ⟨before, heading, after, is⟩ := exists_isFirstHeading none_
    rw [is.stampHeading_eq]
    exact .headed is (is.replace rfl (by simpa using noFeed) (List.forall_mem_nil _))

/-- A heading that has been stamped is stamped again without any change. -/
theorem stampHeading_stampHeading (noFeed : '\n' ∉ name.toList) (text : List Char) :
    stampHeading name (stampHeading name text) = stampHeading name text := by
  by_cases none_ : ∀ line ∈ text.splitOn '\n', isHeading line = false
  · have same := stampHeading_of_none name none_
    rw [same, same]
  · obtain ⟨before, heading, after, is⟩ := exists_isFirstHeading none_
    have plain : '\n' ∉ '#' :: ' ' :: name.toList := by simpa using noFeed
    have stamped := is.replace rfl plain (List.forall_mem_nil _)
    rw [is.stampHeading_eq]
    exact stamped.stampHeading_eq name

theorem Reheaded.length_lines {name changed : List Char} (reheaded : Reheaded name text changed) :
    (changed.splitOn '\n').length = (text.splitOn '\n').length := by
  cases reheaded with
  | headless => rfl
  | headed is stamped => rw [is.lines, stamped.lines, List.length_append, List.length_append, List.length_cons, List.length_cons]

theorem joined_feed (before : List (List Char)) (line : List Char) (after : List (List Char)) :
    joined (before ++ (line ++ ['\n']) :: after) = joined (before ++ line :: [] :: after) := by
  induction before with
  | nil =>
    rw [List.nil_append, List.nil_append, joined_cons, joined_cons, behindLine, joined_cons, List.append_assoc]
    rfl
  | cons first before same =>
    rw [List.cons_append, List.cons_append, joined_cons, joined_cons, behindLine_of_ne_nil (by simp),
      behindLine_of_ne_nil (by simp), same]

/-- A heading that ends in a line feed takes up one more line when it is stamped again. -/
theorem stampHeading_ne_of_feed {body : List Char} (noFeed : '\n' ∉ body) (named : name.toList = body ++ ['\n'])
    (is : IsFirstHeading text before heading after) : stampHeading name (stampHeading name text) ≠ stampHeading name text := by
  have own : '\n' ∉ '#' :: ' ' :: body := by simpa using noFeed
  have blank : ∀ line ∈ [[]], '\n' ∉ line := List.forall_mem_singleton.mpr List.not_mem_nil
  have split (front behind : List (List Char)) : joined (front ++ ('#' :: ' ' :: name.toList) :: behind) =
      joined (front ++ ('#' :: ' ' :: body) :: ([[]] ++ behind)) := by
    rw [named]
    exact joined_feed front ('#' :: ' ' :: body) behind
  have once : IsFirstHeading (stampHeading name text) before ('#' :: ' ' :: body) ([[]] ++ after) := by
    rw [is.stampHeading_eq, split]
    exact is.replace rfl own blank
  have twice : IsFirstHeading (stampHeading name (stampHeading name text)) before ('#' :: ' ' :: body) ([[]] ++ ([[]] ++ after)) := by
    rw [once.stampHeading_eq, split]
    exact once.replace rfl own blank
  intro same
  have lengths := congrArg List.length (twice.lines.symm.trans ((congrArg (List.splitOn '\n') same).trans once.lines))
  simp only [List.length_append, List.length_cons] at lengths
  omega

/-! ## Names -/

/-- An accepted name is made of letters, digits, underscores and hyphens, but for a line feed at its end. -/
theorem exists_of_isProjectName (accepted : isProjectName name = true) :
    ∃ body, (∀ c ∈ body, isNameChar c = true) ∧ (name.toList = body ∨ name.toList = body ++ ['\n']) := by
  unfold isProjectName at accepted
  dsimp only at accepted
  split at accepted
  · next last =>
    obtain ⟨front, split⟩ := List.getLast?_eq_some_iff.mp last
    rw [split, List.dropLast_concat] at accepted
    exact ⟨front, List.all_eq_true.mp ((Bool.and_eq_true _ _).mp accepted).2, .inr split⟩
  · exact ⟨name.toList, List.all_eq_true.mp ((Bool.and_eq_true _ _).mp accepted).2, .inl rfl⟩

theorem notMem_of_isProjectName (accepted : isProjectName name = true) {c : Char} (other : isNameChar c = false) (notFeed : c ≠ '\n') :
    c ∉ name.toList := by
  obtain ⟨body, plain, named⟩ := exists_of_isProjectName accepted
  have absent : c ∉ body := by
    intro mem
    rw [plain c mem] at other
    cases other
  rcases named with named | named
  · rwa [named]
  · rw [named, List.mem_append, List.mem_singleton, not_or]
    exact ⟨absent, notFeed⟩

theorem feed_notMem_of_isProjectName (accepted : isProjectName name = true) (clean : name.toList.getLast? ≠ some '\n') :
    '\n' ∉ name.toList := by
  obtain ⟨body, plain, named | named⟩ := exists_of_isProjectName accepted
  · rw [named]
    intro mem
    cases plain '\n' mem
  · exact absurd (by rw [named, List.getLast?_concat]) clean

/-- An accepted name can be stamped again without any change unless it ends in a line feed and there is a heading. -/
theorem stampHeading_stampHeading_iff (accepted : isProjectName name = true) :
    stampHeading name (stampHeading name text) = stampHeading name text ↔
      name.toList.getLast? ≠ some '\n' ∨ ∀ line ∈ text.splitOn '\n', isHeading line = false := by
  constructor
  · intro same
    by_contra neither
    obtain ⟨last, some_⟩ := not_or.mp neither
    obtain ⟨before, heading, after, is⟩ := exists_isFirstHeading some_
    obtain ⟨body, plain, named | named⟩ := exists_of_isProjectName accepted
    · rw [not_not] at last
      cases plain '\n' (named ▸ List.mem_of_getLast? last)
    · have noFeed : '\n' ∉ body := fun mem => Bool.false_ne_true (plain '\n' mem)
      exact stampHeading_ne_of_feed noFeed named is same
  · rintro (clean | none_)
    · exact stampHeading_stampHeading (feed_notMem_of_isProjectName accepted clean) text
    · have same := stampHeading_of_none name none_
      rw [same, same]

/-! ## Files -/

variable {session : Session} {target path : Path} {change : List Char → List Char} {disk after : Disk}

/-- A file holds a text, if it is there. -/
def IsReadable (disk : Disk) (path : Path) : Prop := disk.isFile path = true → ∃ text, HoldsText disk path text

/-- What a change of a text file makes of a disk: it leaves all other places and where everything is. -/
structure Amends (change : List Char → List Char) (path : Path) (before after : Disk) : Prop where
  shape : Disk.SameShape after before
  elsewhere : ∀ location, before.locate path ≠ .ok location → after.entry? location = before.entry? location
  text : ∀ changed, HoldsText after path changed ↔ ∃ text, HoldsText before path text ∧ changed = change text
  /-- Where there is nothing to change, the line breaks stay as well. -/
  rests : (∀ text, HoldsText before path text → change text = text) → after = before

theorem HoldsText.unique {other : List Char} (holds : HoldsText disk path text) (same : HoldsText disk path other) : other = text := by
  obtain ⟨content, raw, read, decoded, rfl⟩ := holds
  obtain ⟨content', raw', read', decoded', rfl⟩ := same
  obtain rfl := Except.ok.inj (read.symm.trans read')
  obtain rfl := Except.ok.inj (decoded.symm.trans decoded')
  rfl

theorem Amends.of_rests (rests : ∀ text, HoldsText disk path text → change text = text) : Amends change path disk disk := by
  refine ⟨⟨rfl, fun _ => rfl⟩, fun _ _ => rfl, fun changed => ⟨fun holds => ⟨changed, holds, (rests changed holds).symm⟩, ?_⟩, fun _ => rfl⟩
  rintro ⟨text, holds, rfl⟩
  rwa [rests text holds]

/-- A change of a file that can be read succeeds. -/
theorem exists_changeText (clean : ∀ text, '\r' ∉ text → '\r' ∉ change text) (readable : IsReadable session.disk path) :
    ∃ disk, (changeText path change).run session = (.ok (), { session with disk := disk }) ∧ Amends change path session.disk disk := by
  cases read : session.disk.read path with
  | error trouble =>
    refine ⟨session.disk, by rw [changeText_run, read], .of_rests fun text holds => ?_⟩
    obtain ⟨content, raw, there, -⟩ := holds
    rw [read] at there
    cases there
  | ok old =>
    obtain ⟨text, content, raw, there, decoded, rfl⟩ := readable (Disk.isFile_of_read read)
    obtain rfl := Except.ok.inj (read.symm.trans there)
    have holds : HoldsText session.disk path (Operation.unifyLines raw) := ⟨old, raw, read, decoded, rfl⟩
    by_cases same : change (Operation.unifyLines raw) = Operation.unifyLines raw
    · refine ⟨session.disk, ?_, .of_rests fun other held => holds.unique held ▸ same⟩
      rw [changeText_run, read]
      dsimp only
      rw [decoded]
      dsimp only
      rw [if_pos same]
    · obtain ⟨location, located, written, -⟩ :=
        Disk.exists_write_of_read read (encodeChars (change (Operation.unifyLines raw)))
      have ran : (changeText path change).run session =
          (.ok (), { session with
            disk := session.disk.put location (.file (encodeChars (change (Operation.unifyLines raw)))) }) := by
        rw [changeText_run, read]
        dsimp only
        rw [decoded]
        dsimp only
        rw [if_neg same, written]
      obtain ⟨place, located', held⟩ := Disk.read_eq_ok_iff.mp read
      obtain rfl := Except.ok.inj (located.symm.trans located')
      have changed := holdsText_changeText clean ran holds
      refine ⟨_, ran, sameShape_changeText ran, fun other apart => ?_, fun other => ⟨fun own => ⟨_, holds, changed.unique own⟩, ?_⟩,
        fun rests => absurd (rests _ holds) same⟩
      · rw [Disk.entry?_put _ (Disk.ne_root_of_file held), if_neg]
        rintro rfl
        exact apart located
      · rintro ⟨text, own, rfl⟩
        rwa [holds.unique own]

/-- Another file is read as before. -/
theorem Amends.read_eq (amends : Amends change path disk after) {other : Path}
    (apart : ∀ location, disk.locate other = .ok location → disk.locate path ≠ .ok location) : after.read other = disk.read other := by
  unfold Disk.read
  rw [amends.shape.locate]
  cases located : disk.locate other with
  | error cause => rfl
  | ok location =>
    dsimp only
    rw [amends.elsewhere location (apart location located)]

/-- A file that can be read can still be read where the files are the same ones and it holds a text. -/
theorem IsReadable.of_sameShape (readable : IsReadable disk path) (shape : Disk.SameShape after disk)
    (texts : ∀ text, HoldsText disk path text → ∃ changed, HoldsText after path changed) : IsReadable after path := by
  intro isFile
  rw [shape.isFile] at isFile
  obtain ⟨text, holds⟩ := readable isFile
  exact texts text holds

/-- What a file holds depends on what is read from it only. -/
theorem holdsText_congr (same : after.read path = disk.read path) : HoldsText after path text ↔ HoldsText disk path text := by
  rw [HoldsText, HoldsText, same]

theorem return_notMem_stampTitle (accepted : isProjectName name = true) (text : List Char) (absent : '\r' ∉ text) :
    '\r' ∉ stampTitle name text := by
  have retitled := retitled_stampTitle (notMem_of_isProjectName accepted (by decide) (by decide)) text
  generalize stampTitle name text = changed at retitled ⊢
  cases retitled with
  | untitled => exact absent
  | titled isTitle stamped =>
    have own : '\r' ∉ name.toList := notMem_of_isProjectName accepted (by decide) (by decide)
    rw [isTitle.split] at absent
    rw [stamped.split]
    simp only [List.mem_append, not_or] at absent ⊢
    exact ⟨absent.1, absent.2.1, own, absent.2.2.2⟩

theorem return_notMem_stampHeadingFrom {name : List Char} (own : '\r' ∉ name) (atStart : Bool) (text : List Char) (absent : '\r' ∉ text) :
    '\r' ∉ stampHeadingFrom name atStart text := by
  induction text generalizing atStart with
  | nil => exact List.not_mem_nil
  | cons c text inside =>
    obtain ⟨first, later⟩ := List.ne_and_not_mem_of_not_mem_cons absent
    rw [stampHeadingFrom]
    split
    · rw [List.mem_append, not_or]
      exact ⟨by simpa using own, fun mem => later ((List.dropWhile_sublist _).subset mem)⟩
    · exact List.not_mem_cons_of_ne_of_not_mem first (inside _ later)

/-- The page of a project. -/
def pageOf (target : Path) : Path := target.child "index.html"

/-- The description of a project. -/
def descriptionOf (target : Path) : Path := target.child "README.md"

theorem page_apart_description {location : Location} (page : disk.locate (pageOf target) = .ok location) :
    disk.locate (descriptionOf target) ≠ .ok location := by
  intro description
  obtain ⟨named, own⟩ : (pageOf target).IsNamed ∧ (pageOf target).name = "index.html" := Path.isNamed_child (by decide) target
  obtain ⟨named', own'⟩ : (descriptionOf target).IsNamed ∧ (descriptionOf target).name = "README.md" :=
    Path.isNamed_child (by decide) target
  have names := (Disk.getLast?_of_locate named page).symm.trans (Disk.getLast?_of_locate named' description)
  rw [own, own'] at names
  exact absurd (Option.some.inj names) (by decide)

/-- What the application of a name makes of the files of a project. -/
structure Stamps (target : Path) (name : String) (before after : Disk) : Prop where
  shape : Disk.SameShape after before
  elsewhere : ∀ location, before.locate (pageOf target) ≠ .ok location → before.locate (descriptionOf target) ≠ .ok location →
    after.entry? location = before.entry? location
  page : ∀ changed, HoldsText after (pageOf target) changed ↔
    ∃ text, HoldsText before (pageOf target) text ∧ changed = stampTitle name text
  description : ∀ changed, HoldsText after (descriptionOf target) changed ↔
    ∃ text, HoldsText before (descriptionOf target) text ∧ changed = stampHeading name text
  rests : (∀ text, HoldsText before (pageOf target) text → stampTitle name text = text) →
    (∀ text, HoldsText before (descriptionOf target) text → stampHeading name text = text) → after = before

/-- A project whose files can be read is named. -/
theorem exists_applyName (accepted : isProjectName name = true) (page : IsReadable session.disk (pageOf target))
    (description : IsReadable session.disk (descriptionOf target)) (manifest : Option Manifest) :
    ∃ disk, (applyName target name manifest).run session =
        (.ok (manifest.map fun manifest => manifest.setName name), { session with disk := disk }) ∧
      Stamps target name session.disk disk := by
  have own : '\r' ∉ name.toList := notMem_of_isProjectName accepted (by decide) (by decide)
  obtain ⟨titled, first, retitles⟩ := exists_changeText (return_notMem_stampTitle accepted) page
  have read : titled.read (descriptionOf target) = session.disk.read (descriptionOf target) :=
    retitles.read_eq fun location located other => page_apart_description other located
  have description' : IsReadable titled (descriptionOf target) :=
    description.of_sameShape retitles.shape fun text holds => ⟨text, (holdsText_congr read).mpr holds⟩
  obtain ⟨disk, second, reheads⟩ := @exists_changeText { session with disk := titled }
    (descriptionOf target) (stampHeading name) (return_notMem_stampHeadingFrom own true) description'
  have readPage : disk.read (pageOf target) = titled.read (pageOf target) :=
    reheads.read_eq fun location there => page_apart_description there
  refine ⟨disk, ?_, ?_, fun location notPage notDescription => ?_, fun changed => ?_, fun changed => ?_, fun still rests => ?_⟩
  · rw [applyName, bind_run, show (changeText (target.child "index.html") (stampTitle name)).run session = _ from first]
    dsimp only
    rw [bind_run, show (changeText (target.child "README.md") (stampHeading name)).run _ = _ from second]
    rfl
  · exact ⟨reheads.shape.1.trans retitles.shape.1, fun location => (reheads.shape.2 location).trans (retitles.shape.2 location)⟩
  · rw [reheads.elsewhere location (retitles.shape.locate _ ▸ notDescription), retitles.elsewhere location notPage]
  · exact (holdsText_congr readPage).trans (retitles.text changed)
  · refine (reheads.text changed).trans (exists_congr fun text => and_congr_left fun _ => holdsText_congr read)
  · obtain rfl := retitles.rests still
    exact reheads.rests rests

/-! ## Manifests -/

/-- A manifest gets a name, and everything else in it stays as it is. -/
structure BearsName (name : String) (before after : Manifest) : Prop where
  own : after.name? = some (.text name)
  others : ∀ key, key ≠ "name" → after.data.get? key = before.data.get? key
  keys : after.data.keys = if "name" ∈ before.data.keys then before.data.keys else before.data.keys ++ ["name"]
  file : after.path = before.path ∧ after.stored = before.stored

theorem bearsName_setName (name : String) (manifest : Manifest) : BearsName name manifest (manifest.setName name) := by
  refine ⟨?_, fun key other => ?_, keys_set _ _ _, rfl, rfl⟩
  · exact (Manifest.get?_set _ _ _ _).trans (if_pos rfl)
  · exact (Manifest.get?_set _ _ _ _).trans (if_neg other)

theorem eq_of_mem_set {members : Members} {key : String} {value : Value} {member : String × Value} (mem : member ∈ members.set key value)
    (own : member.1 = key) : member = (key, value) := by
  unfold Members.set at mem
  split at mem
  · obtain ⟨old, -, rfl⟩ := List.mem_map.mp mem
    split
    · rfl
    · next other => exact absurd (by rwa [if_neg other] at own) other
  · next absent =>
    rcases List.mem_append.mp mem with mem | mem
    · exact absurd (own ▸ List.mem_map_of_mem mem) absent
    · exact List.mem_singleton.mp mem

theorem set_set (members : Members) (key : String) (value : Value) :
    (members.set key value).set key value = members.set key value := by
  have there : key ∈ (members.set key value).keys := by
    rw [keys_set]
    split
    · assumption
    · exact List.mem_append_right _ List.mem_cons_self
  rw [Members.set, if_pos there]
  refine (List.map_congr_left fun member mem => ?_).trans (List.map_id _)
  split
  · next own => exact (eq_of_mem_set mem own).symm
  · rfl

theorem setName_setName (name : String) (manifest : Manifest) : (manifest.setName name).setName name = manifest.setName name :=
  congrArg (fun data => { manifest with data := data }) (set_set _ _ _)

/-! ## Projects -/

/-- The application of an accepted name changes only the name in the manifest, the first title of the page and, unless the
name ends in a line feed, the first heading of the description, which keeps the number of its lines. Applied once more it
changes nothing, unless the name ends in a line feed and the description has a heading. -/
theorem name_is_stamped (accepted : isProjectName name = true) (page : IsReadable session.disk (pageOf target))
    (description : IsReadable session.disk (descriptionOf target)) (manifest : Option Manifest) :
    ∃ disk named, (applyName target name manifest).run session = (.ok named, { session with disk := disk }) ∧
      Option.Rel (BearsName name) manifest named ∧
      Disk.SameShape disk session.disk ∧
      (∀ location, session.disk.locate (pageOf target) ≠ .ok location →
        session.disk.locate (descriptionOf target) ≠ .ok location → disk.entry? location = session.disk.entry? location) ∧
      (∀ text, HoldsText session.disk (pageOf target) text →
        ∃ changed, HoldsText disk (pageOf target) changed ∧ Retitled name.toList text changed) ∧
      (name.toList.getLast? ≠ some '\n' → ∀ text, HoldsText session.disk (descriptionOf target) text →
        ∃ changed, HoldsText disk (descriptionOf target) changed ∧ Reheaded name.toList text changed ∧
          (changed.splitOn '\n').length = (text.splitOn '\n').length) ∧
      ((applyName target name named).run { session with disk := disk } = (.ok named, { session with disk := disk }) ↔
        name.toList.getLast? ≠ some '\n' ∨ ∀ text, HoldsText session.disk (descriptionOf target) text →
          ∀ line ∈ text.splitOn '\n', isHeading line = false) := by
  have plain : '<' ∉ name.toList := notMem_of_isProjectName accepted (by decide) (by decide)
  obtain ⟨disk, ran, stamps⟩ := exists_applyName accepted page description manifest
  refine ⟨disk, _, ran, ?_, stamps.shape, stamps.elsewhere, fun text holds => ?_, fun clean text holds => ?_, ?_⟩
  · cases manifest with
    | none => exact .none
    | some manifest => exact .some (bearsName_setName name manifest)
  · exact ⟨_, (stamps.page _).mpr ⟨text, holds, rfl⟩, retitled_stampTitle plain text⟩
  · have reheaded := reheaded_stampHeading (feed_notMem_of_isProjectName accepted clean) text
    exact ⟨_, (stamps.description _).mpr ⟨text, holds, rfl⟩, reheaded, reheaded.length_lines⟩
  · have page' : IsReadable disk (pageOf target) :=
      page.of_sameShape stamps.shape fun text holds => ⟨_, (stamps.page _).mpr ⟨text, holds, rfl⟩⟩
    have description' : IsReadable disk (descriptionOf target) :=
      description.of_sameShape stamps.shape fun text holds => ⟨_, (stamps.description _).mpr ⟨text, holds, rfl⟩⟩
    obtain ⟨again, ranAgain, stampsAgain⟩ := @exists_applyName name { session with disk := disk } target accepted page'
      description' (manifest.map fun manifest => manifest.setName name)
    have named : (manifest.map fun manifest => manifest.setName name).map (fun manifest => manifest.setName name) =
        manifest.map fun manifest => manifest.setName name := by
      cases manifest with
      | none => rfl
      | some manifest => exact congrArg some (setName_setName name manifest)
    rw [ranAgain, named]
    have same_iff : again = disk ↔ ∀ text, HoldsText session.disk (descriptionOf target) text →
        stampHeading name (stampHeading name text) = stampHeading name text := by
      constructor
      · rintro rfl text holds
        have once := (stamps.description _).mpr ⟨text, holds, rfl⟩
        exact once.unique ((stampsAgain.description _).mpr ⟨_, once, rfl⟩)
      · refine fun still => stampsAgain.rests (fun changed holds => ?_) (fun changed holds => ?_)
        · obtain ⟨text, -, rfl⟩ := (stamps.page changed).mp holds
          exact stampTitle_stampTitle plain text
        · obtain ⟨text, held, rfl⟩ := (stamps.description changed).mp holds
          exact still text held
    have outcome_iff : ((Except.ok (manifest.map fun manifest => manifest.setName name), { session with disk := again }) :
        Except Failure (Option Manifest) × Session) = (.ok (manifest.map fun manifest => manifest.setName name),
          { session with disk := disk }) ↔ again = disk :=
      ⟨fun same => congrArg (fun outcome => outcome.2.disk) same, fun same => same ▸ rfl⟩
    rw [outcome_iff, same_iff]
    constructor
    · intro still
      refine or_iff_not_imp_left.mpr fun feed text holds => ?_
      exact ((stampHeading_stampHeading_iff accepted).mp (still text holds)).resolve_left feed
    · rintro cases_ text holds
      exact (stampHeading_stampHeading_iff accepted).mpr (cases_.imp_right fun none_ => none_ text holds)

/-- A project with a page and a description. -/
def describedSession (page description : String) : Session :=
  ⟨⟨[], [(["index.html"], .file (encode page)), (["README.md"], .file (encode description))]⟩, [], []⟩

theorem isReadable_described {session : Session} (text : String) (read : session.disk.read path = .ok (encode text)) :
    IsReadable session.disk path :=
  fun _ => ⟨_, _, _, read, decode_encodeChars text.toList, rfl⟩

theorem described_project_is_named :
    isProjectName "my-app" = true ∧
      (applyName ⟨false, []⟩ "my-app" none).run (describedSession "<title>a</title>" "hi\n# x\n") =
        (.ok none, describedSession "<title>my-app</title>" "hi\n# my-app\n") ∧
      (applyName ⟨false, []⟩ "my-app" none).run (describedSession "<title>my-app</title>" "hi\n# my-app\n") =
        (.ok none, describedSession "<title>my-app</title>" "hi\n# my-app\n") := by
  have accepted : isProjectName "my-app" = true := by decide
  let before := describedSession "<title>a</title>" "hi\n# x\n"
  have page : IsReadable before.disk (pageOf ⟨false, []⟩) := isReadable_described "<title>a</title>" (by decide)
  have description : IsReadable before.disk (descriptionOf ⟨false, []⟩) := isReadable_described "hi\n# x\n" (by decide)
  obtain ⟨disk, named, ran, -, -, -, -, -, again⟩ := name_is_stamped accepted page description none
  have once : (applyName ⟨false, []⟩ "my-app" none).run before =
      (.ok none, describedSession "<title>my-app</title>" "hi\n# my-app\n") := by
    with_unfolding_all rfl
  obtain ⟨outcome, session⟩ := Prod.mk.inj (ran.symm.trans once)
  obtain rfl := Except.ok.inj outcome
  have twice := again.mpr (.inl (by decide))
  rw [session] at twice
  exact ⟨accepted, once, twice⟩

/-- A name that ends in a line feed is accepted, and the description grows with each application. -/
theorem description_grows :
    isProjectName "a\n" = true ∧
      (applyName ⟨false, []⟩ "a\n" none).run (describedSession "" "# x\n") = (.ok none, describedSession "" "# a\n\n") ∧
      (applyName ⟨false, []⟩ "a\n" none).run (describedSession "" "# a\n\n") = (.ok none, describedSession "" "# a\n\n\n") := by
  refine ⟨by decide, ?_, ?_⟩
  · with_unfolding_all rfl
  · with_unfolding_all rfl

end Scaffold.Project

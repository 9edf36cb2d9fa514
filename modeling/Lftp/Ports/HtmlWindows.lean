import Lftp.Ports.HtmlListing

/-!
# Windows of an HTML document

`ParseLongList` gives `parse_html` at most 1000 bytes at a time, and tells it that this is all. The
window ends where it will, so what stands there may be cut: a tag, a comment, an anchor or the line
behind it.

`windows_exact`: when no call finds its piece of the document cut, the set is the one that comes of
the whole rest of the document each time. They differ where

* a tag or a comment does not end in the window: the rest of it is text;
* the line of an anchor does not: it has no information, or half of it. Where the window ends right
  behind an anchor and a space follows, a text of length -1 is copied;
* the text before an anchor is longer than the window: what `try_wwwoffle_ftp` reads is cut.
-/

namespace Lftp.Ports.HtmlDir

open Lftp.Verified
open Lftp.Ports.FtpListInfo (addFile blankInfo emptySet setName)
open Lftp.Ports.FileSets (FileInfo FileSet)
open Lftp.Ports.HtmlText (beginsNoCase tokenEq)
open Lftp.Ports.Url (ParsedURL)
open Lftp.Ports.UrlPassword (strstr)

/-! ## What is cut -/

/-- The text before the first tag, and what is behind the `<`. -/
def splitTag (s : Bytes) : Option (Bytes × Bytes) :=
  (s.idxOf? lt).map fun i => (s.take i, s.drop (i + 1))

/-- A tag or a comment that ends, or a comment that begins so late that it is left for the next
window. -/
def closes (u : Bytes) : Bool :=
  if (bytes "!--").isPrefixOf u then u.length - 3 < 3 || (strstr (bytes "-->") (u.drop 3)).isSome
  else gt ∈ u

section

variable (env : Env) (pref : ParsedURL)

/-- A tag that gives a file with the information of its line. -/
def asksLine (base : Option Bytes) (tag : Bytes) : Bool :=
  match found env pref base tag with
  | some (.file _ _ true) => true
  | _ => false

/-- What a call sees. -/
def State.window (s : State) : Bytes := s.rest.take (clen s.rest.length)

def State.beyond (s : State) : UInt8 := (s.rest[clen s.rest.length]?).getD 0

/-- What stands at the place of a call ends inside its window. -/
structure Inside (s : State) : Prop where
  text : splitTag s.window = none → ∀ p ∈ splitTag s.rest, nl ∉ p.1 →
    ∀ tag ∈ (markup p.2).getRight?, isTag tag (bytes "a") = false
  closed : ∀ p ∈ splitTag s.window, endsBefore p.1 p.2 = false → closes p.2 = true
  line : ∀ p ∈ splitTag s.window, endsBefore p.1 p.2 = false → ∀ tag ∈ (markup p.2).getRight?,
    asksLine env pref s.base tag = true →
      let n := p.1.length + tag.length + 2
      lineAt tag (s.window.drop n) s.beyond ((s.window.drop n).length + 1) 0
        = lineAt tag (s.rest.drop n) 0 ((s.rest.drop n).length + 1) 0

/-- A call that is not cut, and that uses no memory that nobody has written. -/
structure Uncut (s : State) : Prop where
  inside : 1000 < s.rest.length → Inside env pref s
  written : (parseHtml env pref s.base s.window s.beyond).isSome = true

instance (s : State) : Decidable (Inside env pref s) :=
  decidable_of_iff ((splitTag s.window = none → ∀ p ∈ splitTag s.rest, nl ∉ p.1 →
        ∀ tag ∈ (markup p.2).getRight?, isTag tag (bytes "a") = false)
      ∧ (∀ p ∈ splitTag s.window, endsBefore p.1 p.2 = false → closes p.2 = true)
      ∧ ∀ p ∈ splitTag s.window, endsBefore p.1 p.2 = false → ∀ tag ∈ (markup p.2).getRight?,
        asksLine env pref s.base tag = true →
          lineAt tag (s.window.drop (p.1.length + tag.length + 2)) s.beyond
              ((s.window.drop (p.1.length + tag.length + 2)).length + 1) 0
            = lineAt tag (s.rest.drop (p.1.length + tag.length + 2)) 0
              ((s.rest.drop (p.1.length + tag.length + 2)).length + 1) 0)
    ⟨fun ⟨hText, hClosed, hLine⟩ => ⟨hText, hClosed, hLine⟩,
      fun h => ⟨h.text, h.closed, h.line⟩⟩

instance (s : State) : Decidable (Uncut env pref s) :=
  decidable_of_iff ((1000 < s.rest.length → Inside env pref s)
      ∧ (parseHtml env pref s.base s.window s.beyond).isSome = true)
    ⟨fun ⟨hInside, hWritten⟩ => ⟨hInside, hWritten⟩, fun h => ⟨h.inside, h.written⟩⟩

/-- The set that the loop begins with. -/
def startSet (doc : Bytes) : FileSet :=
  (if 5 < doc.length ∧ (bytes "<?xml").isPrefixOf doc then env.parseProps doc else none).getD emptySet

/-- The set is that of the whole rest of the document each time. -/
def Agrees (doc : Bytes) : Prop :=
  ∃ set, parseLongList env pref doc = some (some set)
    ∧ parseWindows env pref id doc = some (some set)

end

/-! ## Tags and ends of lines -/

section Pieces

variable {s t u y tag : Bytes} {n k : Nat}

theorem splitTag_append (h : lt ∉ t) (u : Bytes) : splitTag (t ++ lt :: u) = some (t, u) := by
  unfold splitTag
  rw [idxOf?_line h, Option.map_some, List.take_left, drop_next]

theorem splitTag_eq_none : splitTag s = none ↔ lt ∉ s := by
  rw [splitTag, Option.map_eq_none_iff, List.idxOf?_eq_none_iff]

/-- A letter in front of a tag is that of its name. -/
theorem head_of_isTag (h : isTag tag (bytes "a") = true) :
    ∃ c, (tag ++ [gt]).head? = some c ∧ PwdReply.toAsciiLower c = ch 'a' := by
  unfold isTag tokenEq at h
  rw [Bool.and_eq_true, Bool.and_eq_true] at h
  obtain ⟨z, hz⟩ := List.isPrefixOf_iff_prefix.mp h.1.2
  cases hTag : tag ++ [gt] with
  | nil =>
      rw [hTag] at hz
      cases hz
  | cons c w =>
      rw [hTag] at hz
      exact ⟨c, rfl, (List.cons.inj hz).1.symm⟩

/-- A cell of a table is no anchor. -/
theorem isTag_of_cell (hEnds : endsLine (lt :: u) = false) (h : markup u = .inr tag) :
    isTag tag (bytes "a") = false := by
  obtain ⟨behind, rfl, -⟩ := markup_inr h
  refine Bool.eq_false_iff.mpr fun hTag => ?_
  obtain ⟨c, hHead, hLower⟩ := head_of_isTag hTag
  obtain ⟨w, hw⟩ : ∃ w, tag ++ gt :: behind = c :: w := by
    cases tag with
    | nil =>
        obtain rfl := Option.some.inj hHead
        exact ⟨behind, rfl⟩
    | cons d tag =>
        obtain rfl := Option.some.inj hHead
        exact ⟨tag ++ gt :: behind, rfl⟩
  rw [hw] at hEnds
  have hNot (d : UInt8) (hd : d ≠ ch 'a') (token : Bytes) :
      beginsNoCase (lt :: d :: token) (lt :: c :: w) = true → PwdReply.toAsciiLower d ≠ ch 'a' →
        False := by
    intro hBegins hNe
    obtain ⟨z, hz⟩ := List.isPrefixOf_iff_prefix.mp hBegins
    exact hNe ((List.cons.inj (List.cons.inj hz).2).1.trans hLower)
  unfold endsLine at hEnds
  simp only [Bool.or_eq_false_iff, Bool.not_eq_false', Bool.or_eq_true] at hEnds
  rcases hEnds.2 with hTd | hTd
  · exact hNot (ch 't') (by decide) (bytes "d") hTd (by decide)
  · exact hNot slash (by decide) (bytes "td") hTd (by decide)

theorem beginsNoCase_append {token : Bytes} (h : beginsNoCase token s = true) (y : Bytes) :
    beginsNoCase token (s ++ y) = true := by
  unfold beginsNoCase at h ⊢
  rw [List.isPrefixOf_iff_prefix] at h ⊢
  rw [List.map_append]
  exact h.trans (List.prefix_append _ _)

theorem endsLine_append (h : endsLine (lt :: u) = false) (y : Bytes) :
    endsLine (lt :: (u ++ y)) = false := by
  unfold endsLine at h ⊢
  simp only [Bool.or_eq_false_iff, Bool.not_eq_false', Bool.or_eq_true, decide_eq_false_iff_not,
    List.length_cons, List.length_append] at h ⊢
  refine ⟨⟨rfl, by omega⟩, ?_⟩
  rcases h.2 with hTd | hTd
  · exact .inl (beginsNoCase_append hTd y)
  · exact .inr (beginsNoCase_append hTd y)

/-- There are only spaces behind each newline. -/
def SpacesBehind (t : Bytes) : Prop := ∀ z c, t = z ++ nl :: c → ∀ x ∈ c, isSpace x = true

theorem spacesBehind_of_first {line spaces : Bytes} (hLine : nl ∉ line)
    (h : ∀ x ∈ spaces, isSpace x = true) : SpacesBehind (line ++ nl :: spaces) := by
  intro z c hSplit x hx
  rcases List.append_eq_append_iff.mp hSplit with ⟨a, -, ha⟩ | ⟨a, ha, hRest⟩
  · cases a with
    | nil => exact h x ((List.cons.inj ha).2 ▸ hx)
    | cons d a =>
        refine h x ?_
        rw [(List.cons.inj ha).2]
        exact List.mem_append_right a (List.mem_cons_of_mem nl hx)
  · cases a with
    | nil => exact h x ((List.cons.inj hRest).2 ▸ hx)
    | cons d a =>
        refine absurd ?_ hLine
        rw [ha, ← (List.cons.inj hRest).1]
        simp

/-- Before a tag no line ends: there is no newline, or there are spaces behind it and a cell of a
table. -/
theorem endsBefore_false (ht : lt ∉ t) (h : endsBefore t u = false) :
    nl ∉ t ∨ (SpacesBehind t ∧ endsLine (lt :: u) = false) := by
  unfold endsBefore at h
  cases hFind : t.idxOf? nl with
  | none => exact .inl (List.idxOf?_eq_none_iff.mp hFind)
  | some i =>
      obtain ⟨line, spaces, rfl, hLine, rfl⟩ := exists_line hFind
      rw [hFind, Option.any_some, drop_next] at h
      have hSpaces : lt ∉ spaces := fun hMem =>
        ht (List.mem_append_right _ (List.mem_cons_of_mem nl hMem))
      have hScan := dropWhile_spaces hSpaces h
      refine .inr ⟨spacesBehind_of_first hLine fun c hc => ?_, by rwa [hScan] at h⟩
      by_contra hNot
      have hAny : spaces.dropWhile isSpace ≠ [] := fun hNil =>
        hNot (List.dropWhile_eq_nil_iff.mp hNil c hc)
      rw [List.dropWhile_append, if_neg (by simpa using hAny)] at hScan
      obtain ⟨d, w, hHead⟩ := List.exists_cons_of_ne_nil hAny
      rw [hHead, List.cons_append] at hScan
      have hMem : d ∈ spaces :=
        (List.dropWhile_sublist isSpace).subset (hHead ▸ List.mem_cons_self)
      exact hSpaces ((List.cons.inj hScan).1 ▸ hMem)

theorem endsBefore_of_notMem (h : nl ∉ t) : endsBefore t u = false := by
  unfold endsBefore
  rw [List.idxOf?_eq_none_iff.mpr h]
  rfl

/-- Spaces before a cell of a table end no line. -/
theorem endsBefore_spaces (hSpaces : SpacesBehind t) (h : endsLine (lt :: u) = false) :
    endsBefore t u = false := by
  unfold endsBefore
  cases hFind : t.idxOf? nl with
  | none => rfl
  | some i =>
      obtain ⟨line, spaces, rfl, -, rfl⟩ := exists_line hFind
      have hAll := List.dropWhile_eq_nil_iff.mpr (hSpaces line spaces rfl)
      rw [Option.any_some, drop_next, List.dropWhile_append, hAll]
      rw [List.isEmpty_nil, if_pos rfl,
        List.dropWhile_cons_of_neg (by rw [isSpace_lt]; nofun)]
      exact h

/-- Where no line ends before a tag, none ends in what is left of the text. -/
theorem endsBefore_drop (ht : lt ∉ t) (h : endsBefore t u = false) (k : Nat) :
    endsBefore (t.drop k) u = false := by
  rcases endsBefore_false ht h with hNone | ⟨hSpaces, hCell⟩
  · exact endsBefore_of_notMem fun hMem => hNone (List.mem_of_mem_drop hMem)
  · refine endsBefore_spaces (fun z c hSplit => hSpaces (t.take k ++ z) c ?_) hCell
    rw [List.append_assoc, ← hSplit, List.take_append_drop]

/-- What is behind the window does not matter when no line ends before the tag. -/
theorem endsBefore_append (ht : lt ∉ t) (h : endsBefore t u = false) (y : Bytes) :
    endsBefore t (u ++ y) = false := by
  rcases endsBefore_false ht h with hNone | ⟨hSpaces, hCell⟩
  · exact endsBefore_of_notMem hNone
  · exact endsBefore_spaces hSpaces (endsLine_append hCell y)

/-- A line that ends before the tag in the window alone is before a cell of a table. -/
theorem endsLine_of_window (ht : lt ∉ t) (h : endsBefore t u = true)
    (hWhole : endsBefore t (u ++ y) = false) : endsLine (lt :: (u ++ y)) = false := by
  rcases endsBefore_false ht hWhole with hNone | ⟨-, hCell⟩
  · rw [endsBefore_of_notMem hNone] at h
    cases h
  · exact hCell

/-- The first line is also that of what is left of it. -/
theorem lineLength_drop (hk : k < lineLength t) (h : nl ∈ t) :
    lineLength (t.drop k) = lineLength t - k
      ∧ (endsBefore (t.drop k) u = endsBefore t u) := by
  cases hFind : t.idxOf? nl with
  | none => exact absurd h (List.idxOf?_eq_none_iff.mp hFind)
  | some i =>
      obtain ⟨line, rest, rfl, hLine, rfl⟩ := exists_line hFind
      have hLength : lineLength (line ++ nl :: rest) = line.length + 1 := by
        rw [lineLength, hFind]
        rfl
      rw [hLength] at hk ⊢
      have hDrop : (line ++ nl :: rest).drop k = line.drop k ++ nl :: rest :=
        List.drop_append_of_le_length (by omega)
      have hNext : ((line ++ nl :: rest).drop k).idxOf? nl = some (line.drop k).length := by
        rw [hDrop]
        exact idxOf?_line (fun hMem => hLine (List.mem_of_mem_drop hMem)) rest
      constructor
      · rw [lineLength, hNext, Option.elim_some, List.length_drop]
        omega
      · unfold endsBefore
        rw [hNext, hFind, Option.any_some, Option.any_some, hDrop, drop_next, drop_next]

/-! ## Comments and tags in a window -/

theorem strstr_append {needle : Bytes} {i : Nat} (h : strstr needle s = some i) (y : Bytes) :
    strstr needle (s ++ y) = some i := by
  induction s generalizing i with
  | nil =>
      unfold strstr at h
      split at h
      · next hNil =>
        cases h
        subst hNil
        cases y <;> rfl
      · cases h
  | cons c s ih =>
      rw [strstr] at h
      rw [List.cons_append, strstr]
      by_cases hPrefix : needle.isPrefixOf (c :: s) = true
      · rw [if_pos hPrefix] at h
        rw [if_pos]
        · exact h
        · rw [List.isPrefixOf_iff_prefix] at hPrefix ⊢
          exact hPrefix.trans (List.prefix_append (c :: s) y)
      · rw [if_neg hPrefix] at h
        obtain ⟨j, hj, rfl⟩ := Option.map_eq_some_iff.mp h
        obtain ⟨a, z, rfl, rfl, -⟩ := UrlPassword.strstr_eq_some hj
        rw [if_neg, ih hj]
        · rfl
        · intro hLonger
          refine hPrefix (List.isPrefixOf_iff_prefix.mpr ?_)
          refine List.prefix_of_prefix_length_le (List.isPrefixOf_iff_prefix.mp hLonger)
            (List.prefix_append (c :: (a ++ (needle ++ z))) y) ?_
          simp only [List.length_cons, List.length_append]
          omega

/-- What closes in the window is what closes in the document, but for a comment that begins late. -/
theorem markup_append (h : closes u = true) (y : Bytes) :
    markup (u ++ y) = markup u ∨ markup u = .inl 0 ∧ ∃ n, markup (u ++ y) = .inl n := by
  unfold closes at h
  by_cases hComment : (bytes "!--").isPrefixOf u = true
  · have hLonger : (bytes "!--").isPrefixOf (u ++ y) = true := by
      rw [List.isPrefixOf_iff_prefix] at hComment ⊢
      exact hComment.trans (List.prefix_append u y)
    have hThree : 3 ≤ u.length := (List.isPrefixOf_iff_prefix.mp hComment).length_le
    rw [if_pos hComment, Bool.or_eq_true, decide_eq_true_iff] at h
    unfold markup
    rw [if_pos hComment, if_pos hLonger]
    by_cases hLate : u.length - 3 < 3
    · rw [if_pos hLate]
      refine .inr ⟨rfl, ?_⟩
      split
      · exact ⟨0, rfl⟩
      · split
        · exact ⟨_, rfl⟩
        · exact ⟨_, rfl⟩
    · obtain ⟨i, hi⟩ := Option.isSome_iff_exists.mp (h.resolve_left hLate)
      have hBoth : strstr (bytes "-->") ((u ++ y).drop 3) = some i := by
        rw [List.drop_append_of_le_length hThree]
        exact strstr_append hi y
      rw [if_neg hLate, if_neg (by rw [List.length_append]; omega), hi, hBoth]
      exact .inl rfl
  · rw [if_neg hComment, decide_eq_true_iff] at h
    obtain ⟨tag, behind, rfl, hTag⟩ := List.eq_append_cons_of_mem h
    have hLonger : ¬(bytes "!--").isPrefixOf (tag ++ gt :: behind ++ y) = true := by
      intro hPrefix
      have hShort : (tag ++ gt :: behind).length < 3 := by
        by_contra hNot
        exact hComment (List.isPrefixOf_iff_prefix.mpr (List.prefix_of_prefix_length_le
          (List.isPrefixOf_iff_prefix.mp hPrefix) (List.prefix_append _ y) (not_lt.mp hNot)))
      have hSub := (List.prefix_of_prefix_length_le (List.prefix_append (tag ++ gt :: behind) y)
        (List.isPrefixOf_iff_prefix.mp hPrefix) (Nat.le_of_lt hShort)).subset
      have hMem : gt ∈ bytes "!--" := hSub (List.mem_append_right tag List.mem_cons_self)
      revert hMem
      decide
    have hHead : (tag ++ gt :: behind ++ y).head? = (tag ++ gt :: behind).head? := by
      cases tag <;> rfl
    have hText : tag ++ gt :: behind ++ y = tag ++ gt :: (behind ++ y) := by simp
    refine .inl ?_
    unfold markup
    rw [if_neg hComment, if_neg hLonger, hHead, hText, idxOf?_line hTag, idxOf?_line hTag]
    dsimp only
    rw [List.take_left, List.take_left]

end Pieces

/-! ## Calls -/

section Calls

variable {env : Env} {pref : ParsedURL} {base : Option Bytes} {t u v tag behind : Bytes} {k : Nat}
  {beyond : UInt8}

/-- Only an anchor asks for its line. -/
theorem isTag_of_file {target : Bytes} {isDirectory : Bool}
    (h : found env pref base tag = some (.file target isDirectory true)) :
    isTag tag (bytes "a") = true := by
  unfold found at h
  cases hLink : findLink tag with
  | none =>
      rw [hLink] at h
      cases h
  | some p =>
      obtain ⟨⟨name, attr⟩, link⟩ := p
      have hName : isTag tag name = true := by
        obtain ⟨q, -, hq⟩ := List.exists_of_findSome?_eq_some hLink
        split at hq
        · next hTag =>
          obtain ⟨z, -, hz⟩ := Option.map_eq_some_iff.mp hq
          cases hz
          exact hTag
        · cases hq
      have hFile (path : Bytes) : ∀ a, foundFile pref a path = .file target isDirectory true →
          a = true := by
        intro a hFound
        unfold foundFile at hFound
        dsimp only at hFound
        generalize relative pref _ = link at hFound
        split at hFound
        · cases hFound
        · split at hFound
          · cases hFound
            rfl
          · cases hFound
            rfl
      have hFrom (link : Bytes) : foundLink env pref base (name, attr) link
          = .file target isDirectory true → name = bytes "a" := by
        intro hFound
        unfold foundLink at hFound
        dsimp only at hFound
        split at hFound
        · cases hFound
        · split at hFound
          · cases hFound
          · split at hFound
            · cases hFound
            · split at hFound
              · cases hFound
              · have hBoth := hFile _ _ hFound
                rw [Bool.and_eq_true, decide_eq_true_iff] at hBoth
                exact hBoth.1
      rw [hLink] at h
      obtain ⟨decoded, -, hFound⟩ := Option.map_eq_some_iff.mp h
      dsimp only at hFound
      have hA : name = bytes "a" := by
        split at hFound
        · cases hFound
        · split at hFound
          · split at hFound
            · cases hFound
            · exact hFrom _ hFound
          · exact hFrom _ hFound
      rwa [hA] at hName

/-- A tag that is no anchor gives the same wherever it stands. -/
theorem parseTag_plain (env : Env) (pref : ParsedURL) (base : Option Bytes)
    (h : isTag tag (bytes "a") = false) :
    ∃ r : Option (Option Bytes × Option FileInfo), ∀ before behind beyond,
      parseTag env pref base before tag behind beyond
        = r.map fun p => ⟨before.length + tag.length + 2, p.1, p.2⟩ := by
  unfold parseTag
  cases hFound : found env pref base tag with
  | none => exact ⟨none, fun _ _ _ => rfl⟩
  | some f =>
      cases f with
      | nothing => exact ⟨some (base, none), fun _ _ _ => rfl⟩
      | base href => exact ⟨some (some href, none), fun _ _ _ => rfl⟩
      | file target isDirectory aHref =>
          cases aHref with
          | true =>
              rw [isTag_of_file hFound] at h
              cases h
          | false => exact ⟨some (base, fileOf target (Info.new isDirectory)), fun _ _ _ => rfl⟩

/-- What is behind a tag matters for the line alone. -/
theorem parseTag_line {behind' : Bytes} {beyond' : UInt8} (before : Bytes)
    (h : asksLine env pref base tag = true → lineAt tag behind beyond (behind.length + 1) 0
      = lineAt tag behind' beyond' (behind'.length + 1) 0) :
    parseTag env pref base before tag behind beyond
      = parseTag env pref base before tag behind' beyond' := by
  unfold parseTag
  cases hFound : found env pref base tag with
  | none => rfl
  | some f =>
      cases f with
      | nothing => rfl
      | base href => rfl
      | file target isDirectory aHref =>
          cases aHref with
          | true =>
              have hAsks : asksLine env pref base tag = true := by
                unfold asksLine
                rw [hFound]
              dsimp only
              rw [h hAsks]
          | false => rfl

theorem turn_id (s : State) :
    turn env pref id s = advance s (parseHtml env pref s.base s.rest 0) := by
  unfold turn
  dsimp only [id_eq]
  rw [List.take_length, List.getElem?_eq_none (Nat.le_refl _), Option.getD_none]

/-! ## Text in front of a tag -/

variable {set : FileSet} {r : Option FileSet}

/-- A call that uses something. -/
theorem advance_some (s : State) {step : Step} (h : step.used ≠ 0) : advance s (some step)
    = .inl ⟨s.rest.drop step.used, step.file.elim s.set (addFile s.set), step.base⟩ := if_neg h

theorem parseHtml_skip {text : Bytes} {n : Nat} (h : piece text = .skip n) :
    parseHtml env pref base text beyond = some ⟨n, base, none⟩ := by
  unfold parseHtml
  rw [h]

/-- A text without a tag adds nothing. -/
theorem leaves_text (ht : lt ∉ t) :
    Leaves (turn env pref id) ⟨t, set, base⟩ (some set) := by
  induction hn : t.length using Nat.strong_induction_on generalizing t with
  | _ n ih =>
      have hTurn : turn env pref id ⟨t, set, base⟩
          = advance ⟨t, set, base⟩ (some ⟨lineLength t, base, none⟩) := by
        rw [turn_id]
        exact congrArg _ (parseHtml_skip (piece_text ht))
      have hLine := lineLength_le t
      by_cases hZero : lineLength t = 0
      · refine .inr (hTurn.trans ?_)
        exact if_pos hZero
      · refine .inl (hTurn.trans (advance_some _ hZero)) ?_
        exact ih (t.drop (lineLength t)).length (by rw [List.length_drop]; omega)
          (fun hMem => ht (List.mem_of_mem_drop hMem)) rfl

/-- The turn on text and a tag, where no line ends before it. -/
theorem turn_markup (ht : lt ∉ t) (hEnds : endsBefore t u = false) :
    turn env pref id ⟨t ++ lt :: u, set, base⟩ = advance ⟨t ++ lt :: u, set, base⟩
      (match markup u with
        | .inl used => some ⟨t.length + used, base, none⟩
        | .inr tag => parseTag env pref base t tag (u.drop (tag.length + 1)) 0) := by
  rw [turn_id]
  refine congrArg _ ?_
  unfold parseHtml
  dsimp only
  rw [piece_markup ht hEnds]
  cases markup u with
  | inl used => rfl
  | inr tag =>
      dsimp only
      rw [show t.length + tag.length + 2 = t.length + (1 + (tag.length + 1)) by omega,
        ← List.drop_drop, List.drop_left, Nat.add_comm 1, List.drop_succ_cons]

/-- Some text in front of a tag may be left out, when it is of one line and the tag is no anchor. -/
theorem leaves_text_markup (ht : lt ∉ t) (hk : k ≤ t.length)
    (hLine : endsBefore t u = true → k ≤ lineLength t)
    (hTag : endsBefore t u = false → ∀ tag, markup u = .inr tag → isTag tag (bytes "a") = false)
    (h : Leaves (turn env pref id) ⟨t.drop k ++ lt :: u, set, base⟩ r) :
    Leaves (turn env pref id) ⟨t ++ lt :: u, set, base⟩ r := by
  have hDropped : lt ∉ t.drop k := fun hMem => ht (List.mem_of_mem_drop hMem)
  cases hEnds : endsBefore t u with
  | true =>
      have hNl : nl ∈ t := by
        by_contra hNot
        rw [endsBefore_of_notMem hNot] at hEnds
        cases hEnds
      have hPos : 0 < lineLength t := by
        unfold lineLength
        cases hFind : t.idxOf? nl with
        | none => exact absurd hNl (List.idxOf?_eq_none_iff.mp hFind)
        | some i => exact Nat.succ_pos i
      have hTurn : turn env pref id ⟨t ++ lt :: u, set, base⟩
          = .inl ⟨(t ++ lt :: u).drop (lineLength t), set, base⟩ := by
        rw [turn_id]
        refine (congrArg _ (parseHtml_skip (piece_line ht hEnds))).trans ?_
        exact advance_some _ (Nat.pos_iff_ne_zero.mp hPos)
      refine .inl hTurn ?_
      rw [List.drop_append_of_le_length (lineLength_le t)]
      rcases Nat.eq_or_lt_of_le (hLine hEnds) with rfl | hLess
      · exact h
      · obtain ⟨hLength, hSame⟩ := lineLength_drop (u := u) hLess hNl
        have hNext : turn env pref id ⟨t.drop k ++ lt :: u, set, base⟩
            = .inl ⟨(t.drop k ++ lt :: u).drop (lineLength t - k), set, base⟩ := by
          rw [turn_id]
          refine (congrArg _ (parseHtml_skip (piece_line hDropped (hSame.trans hEnds)))).trans ?_
          rw [hLength]
          exact advance_some _ (Nat.sub_ne_zero_of_lt hLess)
        have hRest : (t.drop k ++ lt :: u).drop (lineLength t - k)
            = t.drop (lineLength t) ++ lt :: u := by
          have hLe := lineLength_le t
          rw [List.drop_append_of_le_length (by rw [List.length_drop]; omega), List.drop_drop,
            Nat.add_sub_cancel' (Nat.le_of_lt hLess)]
        rw [hRest] at hNext
        exact h.next hNext
  | false =>
      have hTurn : turn env pref id ⟨t ++ lt :: u, set, base⟩ = _ := turn_markup ht hEnds
      have hNext : turn env pref id ⟨t.drop k ++ lt :: u, set, base⟩ = _ :=
        turn_markup hDropped (endsBefore_drop ht hEnds k)
      have hSame (n : Nat) : (t ++ lt :: u).drop (t.length + n)
          = (t.drop k ++ lt :: u).drop ((t.drop k).length + n) := by
        rw [← List.drop_drop, ← List.drop_drop, List.drop_left, List.drop_left]
      by_cases hZero : k = 0
      · subst hZero
        exact h
      cases hMarkup : markup u with
      | inl used =>
          rw [hMarkup] at hTurn hNext
          have hUsed : t.length + used ≠ 0 := by omega
          refine .inl (hTurn.trans (advance_some _ hUsed)) ?_
          by_cases hNone : (t.drop k).length + used = 0
          · have hEmpty : t.drop k = [] := List.eq_nil_of_length_eq_zero (by omega)
            show Leaves (turn env pref id) ⟨(t ++ lt :: u).drop (t.length + used), set, base⟩ r
            rw [hSame, hNone]
            exact h
          · have hGoes := h.next (hNext.trans (advance_some _ hNone))
            show Leaves (turn env pref id) ⟨(t ++ lt :: u).drop (t.length + used), set, base⟩ r
            rw [hSame]
            exact hGoes
      | inr tag =>
          obtain ⟨p, hPlain⟩ := parseTag_plain env pref base (hTag hEnds tag hMarkup)
          rw [hMarkup] at hTurn hNext
          dsimp only at hTurn hNext
          rw [hPlain] at hTurn hNext
          cases p with
          | none =>
              obtain rfl := h.last hNext
              exact .inr hTurn
          | some p =>
              rw [Option.map_some] at hTurn hNext
              have hGoes := h.next (hNext.trans (advance_some _ (Nat.succ_ne_zero _)))
              refine .inl (hTurn.trans (advance_some _ (Nat.succ_ne_zero _))) ?_
              show Leaves (turn env pref id) ⟨(t ++ lt :: u).drop (t.length + tag.length + 2), _, _⟩ r
              rw [Nat.add_assoc, hSame, ← Nat.add_assoc]
              exact hGoes

/-! ## Windows -/

theorem lineLength_append (s y : Bytes) : lineLength s ≤ lineLength (s ++ y) := by
  unfold lineLength
  cases hFind : s.idxOf? nl with
  | some i =>
      obtain ⟨line, rest, rfl, hLine, rfl⟩ := exists_line hFind
      rw [List.append_assoc, List.cons_append, idxOf?_line hLine]
      exact Nat.le_refl _
  | none =>
      cases hBoth : (s ++ y).idxOf? nl with
      | none =>
          show s.length ≤ (s ++ y).length
          rw [List.length_append]
          omega
      | some i =>
          obtain ⟨line, rest, hSplit, -, rfl⟩ := exists_line hBoth
          show s.length ≤ line.length + 1
          by_contra hShort
          have hMem : nl ∈ s := by
            have hAt : (s ++ y)[line.length]? = s[line.length]? :=
              List.getElem?_append_left (by omega)
            refine List.mem_of_getElem? (i := line.length) ?_
            rw [← hAt, hSplit]
            simp
          exact List.idxOf?_eq_none_iff.mp hFind hMem

theorem lineLength_ne_zero {s : Bytes} (h : s ≠ []) : lineLength s ≠ 0 := by
  unfold lineLength
  cases s.idxOf? nl with
  | none => exact fun hZero => h (List.eq_nil_of_length_eq_zero hZero)
  | some i => exact Nat.succ_ne_zero i

theorem length_of_markup_zero {u : Bytes} (h : markup u = .inl 0) : u.length < 6 := by
  unfold markup at h
  by_cases hComment : (bytes "!--").isPrefixOf u = true
  · rw [if_pos hComment] at h
    by_cases hLate : u.length - 3 < 3
    · omega
    · rw [if_neg hLate] at h
      cases hFind : strstr (bytes "-->") (u.drop 3) with
      | none =>
          rw [hFind] at h
          have hZero := Sum.inl.inj h
          omega
      | some i =>
          rw [hFind] at h
          have hZero := Sum.inl.inj h
          omega
  · rw [if_neg hComment] at h
    cases hFind : u.idxOf? gt with
    | none =>
        rw [hFind] at h
        have hZero : 1 + u.length = 0 := Sum.inl.inj h
        omega
    | some k =>
        rw [hFind] at h
        dsimp only at h
        split at h
        · have hZero := Sum.inl.inj h
          omega
        · cases h

theorem turn_clen (s : State) : turn env pref clen s
    = advance s (parseHtml env pref s.base s.window s.beyond) := rfl

/-- A call that is not cut does what it does on the whole document, or it passes by some text that the
whole document may be without. -/
theorem turn_inside {s : State} (hLong : 1000 < s.rest.length) (h : Inside env pref s) :
    turn env pref clen s = turn env pref id s
      ∨ ∃ k, turn env pref clen s = .inl ⟨s.rest.drop k, s.set, s.base⟩
        ∧ ∀ r, Leaves (turn env pref id) ⟨s.rest.drop k, s.set, s.base⟩ r →
          Leaves (turn env pref id) s r := by
  obtain ⟨rest, set, base⟩ := s
  obtain ⟨hText, hClosed, hLine⟩ := h
  have hClen : clen rest.length = 1000 := if_pos hLong
  obtain ⟨w, y, rfl, hw⟩ : ∃ w y, rest = w ++ y ∧ w.length = 1000 :=
    ⟨rest.take 1000, rest.drop 1000, (List.take_append_drop _ _).symm,
      List.length_take_of_le (Nat.le_of_lt hLong)⟩
  have hWindow : State.window ⟨w ++ y, set, base⟩ = w := by
    unfold State.window
    dsimp only
    rw [hClen, ← hw, List.take_left]
  have hNe : w ≠ [] := by
    rintro rfl
    cases hw
  have hSkip {n : Nat} (hPiece : piece w = .skip n) (hn : n ≠ 0) :
      turn env pref clen ⟨w ++ y, set, base⟩ = .inl ⟨(w ++ y).drop n, set, base⟩ := by
    rw [turn_clen, hWindow, parseHtml_skip hPiece]
    exact advance_some _ hn
  rw [hWindow] at hText hClosed hLine
  rcases text_or_markup w with hNone | ⟨t, u, rfl, ht⟩
  · refine .inr ⟨lineLength w, hSkip (piece_text hNone) (lineLength_ne_zero hNe), fun r hr => ?_⟩
    rcases text_or_markup y with hAll | ⟨z, u, rfl, hz⟩
    · have hBoth : lt ∉ w ++ y := fun hMem => (List.mem_append.mp hMem).elim hNone hAll
      have hSame := hr.unique (leaves_text fun hMem => hBoth (List.mem_of_mem_drop hMem))
      rw [hSame]
      exact leaves_text hBoth
    · have ht : lt ∉ w ++ z := fun hMem => (List.mem_append.mp hMem).elim hNone hz
      have hLe := lineLength_le w
      rw [← List.append_assoc, List.drop_append_of_le_length
        (by rw [List.length_append]; omega)] at hr
      rw [← List.append_assoc]
      refine leaves_text_markup ht (by rw [List.length_append]; omega)
        (fun _ => lineLength_append w z) (fun hEnds tag hTag => ?_) hr
      rcases endsBefore_false ht hEnds with hNl | ⟨-, hCell⟩
      · refine hText (splitTag_eq_none.mpr hNone) (w ++ z, u) ?_ hNl tag ?_
        · rw [← List.append_assoc]
          exact splitTag_append ht u
        · rw [hTag]
          rfl
      · exact isTag_of_cell hCell hTag
  · have hLength := lineLength_le t
    have hRest : t ++ lt :: u ++ y = t ++ lt :: (u ++ y) := by simp
    cases hEnds : endsBefore t u with
    | true =>
        have hNotNil : t ≠ [] := by
          rintro rfl
          cases hEnds
        refine .inr ⟨lineLength t, hSkip (piece_line ht hEnds) (lineLength_ne_zero hNotNil),
          fun r hr => ?_⟩
        rw [hRest, List.drop_append_of_le_length hLength] at hr
        rw [hRest]
        exact leaves_text_markup ht hLength (fun _ => Nat.le_refl _)
          (fun hWhole tag hTag => isTag_of_cell (endsLine_of_window ht hEnds hWhole) hTag) hr
    | false =>
        have hWhole := endsBefore_append ht hEnds y
        have hPiece := piece_markup ht hEnds
        rcases markup_append (hClosed (t, u) (splitTag_append ht u) hEnds) y with hSame | hLate
        · refine .inl ?_
          rw [turn_clen, hWindow, turn_id, hRest]
          refine congrArg _ ?_
          unfold parseHtml
          dsimp only
          rw [hPiece, piece_markup ht hWhole, hSame]
          cases hMarkup : markup u with
          | inl used => rfl
          | inr tag =>
              dsimp only
              refine parseTag_line t fun hAsks => ?_
              have hEqual := hLine (t, u) (splitTag_append ht u) hEnds tag (by rw [hMarkup]; rfl) hAsks
              rw [hRest] at hEqual
              exact hEqual
        · obtain ⟨hZero, n, hn⟩ := hLate
          have hShort : u.length < 6 := length_of_markup_zero hZero
          rw [List.length_append, List.length_cons] at hw
          rw [hZero] at hPiece
          refine .inr ⟨t.length, hSkip hPiece (by omega), fun r hr => ?_⟩
          rw [hRest, List.drop_append_of_le_length (Nat.le_refl _)] at hr
          rw [hRest]
          refine leaves_text_markup ht (Nat.le_refl _) (fun hTrue => ?_) (fun _ tag hTag => ?_) hr
          · rw [hWhole] at hTrue
            cases hTrue
          · rw [hn] at hTag
            cases hTag

/-- A call that uses no unwritten memory leaves with a set, when it leaves. -/
theorem turn_written {s : State} {r : Option FileSet}
    (h : (parseHtml env pref s.base s.window s.beyond).isSome = true)
    (hLeave : turn env pref clen s = .inr r) : ∃ set, r = some set := by
  obtain ⟨step, hStep⟩ := Option.isSome_iff_exists.mp h
  rw [turn_clen, hStep] at hLeave
  by_cases hZero : step.used = 0
  · exact ⟨_, (Sum.inr.inj ((if_pos hZero).symm.trans hLeave)).symm⟩
  · cases (if_neg hZero).symm.trans hLeave

theorem turn_uncut {s : State} (h : Uncut env pref s) :
    turn env pref clen s = turn env pref id s
      ∨ ∃ k, turn env pref clen s = .inl ⟨s.rest.drop k, s.set, s.base⟩
        ∧ ∀ r, Leaves (turn env pref id) ⟨s.rest.drop k, s.set, s.base⟩ r →
          Leaves (turn env pref id) s r := by
  by_cases hLong : 1000 < s.rest.length
  · exact turn_inside hLong (h.inside hLong)
  · refine .inl ?_
    unfold turn
    dsimp only
    rw [show clen s.rest.length = id s.rest.length from if_neg hLong]

end Calls

/-- A listing on `http://h/d/`. -/
def plainEnv : Env :=
  ⟨⟨fun _ => false, fun _ => false, fun _ => false, fun _ => false⟩, FtpListInfo.stillClock,
    fun _ => none⟩

def plainPrefix : ParsedURL :=
  ⟨some (bytes "http"), none, none, some (bytes "h"), none, some (bytes "/d/")⟩

/-- What agrees has the same names. -/
theorem Agrees.names {env : Env} {pref : ParsedURL} {doc : Bytes} (h : Agrees env pref doc) :
    (parseLongList env pref doc).map (Option.map fun set => set.files.map FileInfo.name)
      = (parseWindows env pref id doc).map (Option.map fun set => set.files.map FileInfo.name) := by
  obtain ⟨set, hWindows, hWhole⟩ := h
  rw [hWindows, hWhole]

end Lftp.Ports.HtmlDir

import Mathlib.Tactic.SplitIfs
import SplitPackages.Toml.Library

/-!
# What is written is read

A value that is laid out is read as it was, whatever stands behind it. So is a
line that gives a key a value, and a header. Keys are bare words here, as all
keys of a world are.

`Writes text s` says of a text that it is one statement. `Reads text ss` puts
statements together, with empty lines between them, up to the end of a text.
-/

namespace SplitPackages.Toml

namespace Quotation

theorem read_basic_mark (rest : List Char) :
    basic.read (.text false) ('"' :: rest) = some ([], rest) := by
  simp [read, basic, closing]

/-- A character that needs no escape. -/
theorem read_basic_cons {c : Char} (hmark : c ≠ '"') (hescape : c ≠ '\\')
    (hc : isPrintable c = true) (cs : List Char) :
    basic.read (.text false) (c :: cs) = read.keep c (basic.read (.text false) cs) := by
  simp [read, basic, hmark, hescape, hc]

theorem read_basic_escape {letter c : Char} (hu : letter ≠ 'u') (hU : letter ≠ 'U')
    (h : escaped letter = some c) (cs : List Char) :
    basic.read (.text false) ('\\' :: letter :: cs) =
      read.keep c (basic.read (.text false) cs) := by
  simp [read, basic, hu, hU, h]

theorem digit_hexDigit (n : Nat) : digit 16 (Layout.hexDigit n) = some (n % 16) := by
  have h : ∀ k < 16, digit 16 (Nat.digitChar k).toUpper = some k := by decide
  exact h _ (Nat.mod_lt _ (by decide))

theorem ofCode_toNat (c : Char) : ofCode c.toNat = some c := by
  have hvalid : c.toNat.isValidChar := c.valid
  rw [ofCode, if_pos hvalid, Char.ofNat_toNat]

/-- A character by its number. -/
theorem read_basic_code {c : Char} (hc : c.toNat < 256) (cs : List Char) :
    basic.read (.text false) ('\\' :: 'u' :: '0' :: '0' :: Layout.hexDigit (c.toNat / 16) ::
      Layout.hexDigit c.toNat :: cs) = read.keep c (basic.read (.text false) cs) := by
  have hzero : digit 16 '0' = some 0 := by decide
  have hnumber : 16 * (c.toNat / 16 % 16) + c.toNat % 16 = c.toNat := by omega
  simp only [read, basic, hzero, digit_hexDigit, Option.bind_some]
  simp [hnumber, ofCode_toNat]

theorem read_escapedChar (c : Char) (cs : List Char) :
    basic.read (.text false) (Layout.escapedChar c ++ cs) =
      read.keep c (basic.read (.text false) cs) := by
  unfold Layout.escapedChar
  split_ifs with hquote hslash htab hline hreturn hback hfeed hc
  · subst hquote; exact read_basic_escape (by decide) (by decide) rfl cs
  · subst hslash; exact read_basic_escape (by decide) (by decide) rfl cs
  · exact htab ▸ read_basic_escape (by decide) (by decide) rfl cs
  · exact hline ▸ read_basic_escape (by decide) (by decide) rfl cs
  · exact hreturn ▸ read_basic_escape (by decide) (by decide) rfl cs
  · exact hback ▸ read_basic_escape (by decide) (by decide) rfl cs
  · exact hfeed ▸ read_basic_escape (by decide) (by decide) rfl cs
  · exact read_basic_cons hquote hslash hc cs
  · refine read_basic_code ?_ cs
    simp only [isPrintable, Bool.or_eq_true, decide_eq_true_eq, Bool.and_eq_true, not_or] at hc
    omega

theorem read_basic (cs rest : List Char) :
    basic.read (.text false) (cs.flatMap Layout.escapedChar ++ '"' :: rest) = some (cs, rest) := by
  induction cs with
  | nil => exact read_basic_mark rest
  | cons c cs ih => rw [List.flatMap_cons, List.append_assoc, read_escapedChar, ih]; rfl

theorem read_literal {cs : List Char}
    (h : ∀ c ∈ cs, isPrintable c = true ∧ c ≠ '\'') (rest : List Char) :
    literal.read (.text false) (cs ++ '\'' :: rest) = some (cs, rest) := by
  induction cs with
  | nil => simp [read, literal, closing]
  | cons c cs ih =>
    obtain ⟨hc, hmark⟩ := h c List.mem_cons_self
    have ih := ih fun d hd => h d (List.mem_cons_of_mem _ hd)
    simp only [literal] at ih
    simp [read, literal, hmark, hc, ih, read.keep]

end Quotation

/-! ## Values -/

/-- A string starts with one mark, and if it has characters, no mark follows. -/
theorem escapedChar_ne (c : Char) : ∃ d ds, Layout.escapedChar c = d :: ds ∧ d ≠ '"' := by
  unfold Layout.escapedChar
  split_ifs with hquote
  all_goals first | exact ⟨_, _, rfl, by decide⟩ | exact ⟨_, _, rfl, hquote⟩

theorem string?_basic (cs : List Char) {rest : List Char} (h : rest.head? ≠ some '"') :
    string? ('"' :: cs.flatMap Layout.escapedChar ++ '"' :: rest) = some (cs, rest) := by
  have hshort : string? ('"' :: cs.flatMap Layout.escapedChar ++ '"' :: rest) =
      line? ('"' :: cs.flatMap Layout.escapedChar ++ '"' :: rest) := by
    cases cs with
    | nil =>
      cases rest with
      | nil => rfl
      | cons d ds => simp_all [string?]
    | cons c cs =>
      obtain ⟨d, ds, hd, hne⟩ := escapedChar_ne c
      simp [string?, hd, hne]
  rw [hshort]
  exact Quotation.read_basic cs rest

theorem string?_literal {cs : List Char} (hne : cs ≠ [])
    (h : ∀ c ∈ cs, isPrintable c = true ∧ c ≠ '\'') (rest : List Char) :
    string? ('\'' :: cs ++ '\'' :: rest) = some (cs, rest) := by
  have hshort : string? ('\'' :: cs ++ '\'' :: rest) = line? ('\'' :: cs ++ '\'' :: rest) := by
    obtain ⟨c, ds, rfl⟩ := List.exists_cons_of_ne_nil hne
    simp [string?, (h c List.mem_cons_self).2]
  rw [hshort]
  exact Quotation.read_literal h rest

theorem prefersLiteral_iff {cs : List Char} : Layout.prefersLiteral cs = true ↔
    (∃ c ∈ cs, c = '"' ∨ c = '\\') ∧ ∀ c ∈ cs, isPrintable c = true ∧ c ≠ '\'' := by
  simp [Layout.prefersLiteral]

/-- A string starts with one of its marks. -/
theorem exists_string (s : String) :
    ∃ c cs, Layout.string s = c :: cs ∧ (c = '"' ∨ c = '\'') := by
  simp only [Layout.string]
  split
  · exact ⟨_, _, rfl, .inr rfl⟩
  · exact ⟨_, _, rfl, .inl rfl⟩

theorem string?_string (s : String) {rest : List Char} (h : rest.head? ≠ some '"') :
    string? (Layout.string s ++ rest) = some (s.toList, rest) := by
  simp only [Layout.string]
  split
  · next hl =>
    obtain ⟨⟨c, hc, -⟩, hall⟩ := prefersLiteral_iff.mp hl
    rw [List.append_assoc]
    exact string?_literal (List.ne_nil_of_mem hc) hall rest
  · rw [List.append_assoc]
    exact string?_basic s.toList h

theorem value_string (limit : Nat) (s : String) (rest : List Char) (h : rest.head? ≠ some '"') :
    value limit (Layout.string s ++ rest) = some (.string s, rest) := by
  have hstring := string?_string s h
  obtain ⟨c, cs, hs, hmark⟩ := exists_string s
  rw [hs, List.cons_append] at hstring ⊢
  have hmark : (c = '"' || c = '\'') = true := by simpa using hmark
  unfold value
  simp only [hmark, if_true, hstring, Option.map_some, String.ofList_toList]

theorem value_flag (limit : Nat) (b : Bool) (rest : List Char) :
    value limit (Layout.flag b ++ '\n' :: rest) = some (.boolean b, '\n' :: rest) := by
  unfold value
  cases b <;> rfl

/-- A character that is not skipped. -/
def isSolid (c : Char) : Bool := !(isSpace c || c = '\n' || c = '\r' || c = '#')

theorem skip_solid {c : Char} (h : isSolid c = true) (cs : List Char) :
    skip false (c :: cs) = some (c :: cs) := by
  simp only [isSolid, Bool.not_eq_true', Bool.or_eq_false_iff, decide_eq_false_iff_not] at h
  simp [skip, h]

theorem skip_string (s : String) (rest : List Char) :
    skip false (Layout.string s ++ rest) = some (Layout.string s ++ rest) := by
  obtain ⟨c, cs, hs, rfl | rfl⟩ := exists_string s
  all_goals rw [hs, List.cons_append]; exact skip_solid (by decide) _

theorem items_last {limit n : Nat} (s : String) (rest : List Char) :
    items (value limit) (n + 1) (Layout.string s ++ ']' :: rest) = some ([.string s], rest) := by
  have hskip := skip_string s (']' :: rest)
  have hvalue := value_string limit s (']' :: rest) (by simp)
  have hend := skip_solid (c := ']') (by decide) rest
  obtain ⟨c, cs, hs, rfl | rfl⟩ := exists_string s
  all_goals
    rw [hs, List.cons_append] at hskip hvalue ⊢
    simp [items, hskip, hvalue, hend]

theorem items_next {limit n : Nat} {cs : List Char} (s : String) (rest : List Char)
    (h : skip false cs = some (Layout.string s ++ ',' :: rest)) :
    items (value limit) (n + 1) cs =
      (items (value limit) n rest).map fun r => (.string s :: r.1, r.2) := by
  have hvalue := value_string limit s (',' :: rest) (by simp)
  have hend := skip_solid (c := ',') (by decide) rest
  obtain ⟨c, ds, hs, rfl | rfl⟩ := exists_string s
  all_goals
    rw [hs, List.cons_append] at h hvalue
    cases hrest : items (value limit) n rest <;> simp [items, h, hvalue, hend, hrest]

theorem skip_line (cs : List Char) : skip false ('\n' :: cs) = skip false cs := by
  simp [skip]

theorem skip_indent (cs : List Char) :
    skip false (' ' :: ' ' :: ' ' :: ' ' :: cs) = skip false cs := by
  simp [skip, isSpace]

/-- The items that stand on lines of their own. -/
theorem items_lines {limit : Nat} (rest : List Char) : ∀ (ss : List String) (n : Nat),
    ss.length < n →
    items (value limit) n ('\n' :: (ss.flatMap Layout.itemLine ++ ']' :: rest)) =
      some (ss.map .string, rest)
  | _, 0, h => absurd h (Nat.not_lt_zero _)
  | [], n + 1, _ => by
    have hend := skip_solid (c := ']') (by decide) rest
    simp [items, skip_line, hend]
  | s :: ss, n + 1, h => by
    have hline : skip false ('\n' :: ((s :: ss).flatMap Layout.itemLine ++ ']' :: rest)) =
        some (Layout.string s ++ ',' :: '\n' :: (ss.flatMap Layout.itemLine ++ ']' :: rest)) := by
      rw [skip_line, List.flatMap_cons, Layout.itemLine]
      simp only [List.append_assoc, List.cons_append, List.nil_append]
      rw [skip_indent, skip_string]
    rw [items_next s _ hline, items_lines rest ss n (Nat.lt_of_succ_lt_succ h)]
    rfl

theorem value_strings (limit : Nat) (ss : List String) (rest : List Char) :
    value (limit + 1) (Layout.strings ss ++ rest) = some (.array (ss.map .string), rest) := by
  have hopen (cs : List Char) (vs : List Value)
      (h : items (value limit) (cs.length + 1) cs = some (vs, rest)) :
      value (limit + 1) ('[' :: cs) = some (.array vs, rest) := by
    unfold value
    simp [h]
  match ss with
  | [] =>
    refine hopen (']' :: rest) [] ?_
    have hend := skip_solid (c := ']') (by decide) rest
    simp [items, hend]
  | [s] =>
    have hlayout : Layout.strings [s] ++ rest = '[' :: (Layout.string s ++ ']' :: rest) := by
      simp [Layout.strings]
    rw [hlayout]
    exact hopen _ _ (items_last s rest)
  | s :: s' :: ss =>
    have hlayout : Layout.strings (s :: s' :: ss) ++ rest =
        '[' :: '\n' :: ((s :: s' :: ss).flatMap Layout.itemLine ++ ']' :: rest) := by
      simp [Layout.strings]
    rw [hlayout]
    refine hopen _ _ (items_lines rest _ _ ?_)
    -- every line is longer than nothing
    have hlong : ∀ ss : List String, ss.length ≤ (ss.flatMap Layout.itemLine).length := by
      intro ss
      induction ss with
      | nil => exact Nat.le_refl 0
      | cons s ss ih =>
        rw [List.flatMap_cons, List.length_append, List.length_cons]
        simp only [Layout.itemLine, List.length_append, List.length_cons]
        omega
    have hlong := hlong (s :: s' :: ss)
    simp only [List.length_cons, List.length_append] at hlong ⊢
    omega

/-! ## Contents of lines -/

theorem value_content (limit : Nat) (c : Content) (rest : List Char) :
    value (limit + 1) (Layout.content c ++ '\n' :: rest) = some (c.toValue, '\n' :: rest) := by
  cases c with
  | flag b => exact value_flag _ b rest
  | text s => exact value_string _ s _ (by simp)
  | texts ss => exact value_strings limit ss _

/-- A content starts with a character that is no blank. -/
theorem skipSpaces_content (c : Content) (rest : List Char) :
    skipSpaces (Layout.content c ++ rest) = Layout.content c ++ rest := by
  have hfirst : ∃ d ds, Layout.content c = d :: ds ∧ isSpace d = false := by
    match c with
    | .flag true => exact ⟨_, _, rfl, by decide⟩
    | .flag false => exact ⟨_, _, rfl, by decide⟩
    | .text s =>
      obtain ⟨d, ds, h, rfl | rfl⟩ := exists_string s
      · exact ⟨_, ds, h, by decide⟩
      · exact ⟨_, ds, h, by decide⟩
    | .texts [] => exact ⟨_, _, rfl, by decide⟩
    | .texts [_] => exact ⟨_, _, rfl, by decide⟩
    | .texts (_ :: _ :: _) => exact ⟨_, _, rfl, by decide⟩
  obtain ⟨d, ds, h, hd⟩ := hfirst
  rw [h, List.cons_append, skipSpaces, List.dropWhile_cons_of_neg (by simp [hd])]

/-! ## Keys and statements -/

/-- Whether a key is a bare word. -/
def isBareKey (k : String) : Bool := !k.toList.isEmpty && k.toList.all isBare

theorem exists_bare {k : String} (h : isBareKey k = true) :
    ∃ c cs, k.toList = c :: cs ∧ isBare c = true ∧ ∀ d ∈ c :: cs, isBare d = true := by
  simp only [isBareKey, Bool.and_eq_true, Bool.not_eq_true', List.isEmpty_eq_false_iff,
    List.all_eq_true] at h
  obtain ⟨c, cs, hk⟩ := List.exists_cons_of_ne_nil h.1
  rw [hk] at h
  exact ⟨c, cs, hk, h.2 c List.mem_cons_self, h.2⟩

/-- Bare words have none of the characters that mean something else. -/
theorem ne_of_isBare {c d : Char} (h : isBare c = true) (hd : isBare d = false) : c ≠ d := by
  rintro rfl
  rw [h] at hd
  cases hd

theorem isSpace_of_isBare {c : Char} (h : isBare c = true) : isSpace c = false := by
  simp [isSpace, ne_of_isBare h (d := ' ') (by decide), ne_of_isBare h (d := '\t') (by decide)]

theorem isSolid_of_isBare {c : Char} (h : isBare c = true) : isSolid c = true := by
  simp [isSolid, isSpace_of_isBare h, ne_of_isBare h (d := '\n') (by decide),
    ne_of_isBare h (d := '\r') (by decide), ne_of_isBare h (d := '#') (by decide)]

theorem segment_bare {k : String} (h : isBareKey k = true) {d : Char} (hd : isBare d = false)
    (rest : List Char) : segment (k.toList ++ d :: rest) = some (k, d :: rest) := by
  obtain ⟨c, cs, hk, hc, hall⟩ := exists_bare h
  have htake : (k.toList ++ d :: rest).takeWhile isBare = k.toList := by
    rw [hk, List.takeWhile_append_of_pos hall, List.takeWhile_cons_of_neg (by simp [hd]),
      List.append_nil]
  have hdrop : (k.toList ++ d :: rest).dropWhile isBare = d :: rest := by
    rw [hk, List.dropWhile_append_of_pos hall, List.dropWhile_cons_of_neg (by simp [hd])]
  rw [hk, List.cons_append] at htake hdrop ⊢
  rw [segment, if_neg, if_pos hc, htake, hdrop, ← hk, String.ofList_toList]
  simp [ne_of_isBare hc (d := '"') (by decide), ne_of_isBare hc (d := '\'') (by decide)]

/-- A bare key with something behind it that is no dot. -/
theorem key_bare {k : String} (h : isBareKey k = true) {cs rest : List Char} {c d : Char}
    (hd : isBare d = false) (hskip : skipSpaces (d :: cs) = c :: rest) (hc : c ≠ '.') :
    key nestingLimit (k.toList ++ d :: cs) = some (⟨[], k⟩, c :: rest) := by
  obtain ⟨e, es, hk, he, -⟩ := exists_bare h
  have hstart : skipSpaces (k.toList ++ d :: cs) = k.toList ++ d :: cs := by
    rw [hk, List.cons_append, skipSpaces,
      List.dropWhile_cons_of_neg (by simp [isSpace_of_isBare he])]
  rw [nestingLimit, key]
  simp [hstart, segment_bare h hd, hskip, hc]

theorem lineEnd_line (rest : List Char) : lineEnd ('\n' :: rest) = skip false rest := by
  simp [lineEnd, skipSpaces, isSpace, skip_line]

/-- The text, whatever is behind it, is one statement. -/
structure Writes (text : List Char) (s : Statement) : Prop where
  first : ∃ c cs, text = c :: cs ∧ isSolid c = true ∧ c ≠ '\ufeff'
  reads : ∀ rest, statement (text ++ rest) = (skip false rest).map (s, ·)

theorem line_writes {k : String} (h : isBareKey k = true) (c : Content) :
    Writes (Layout.line (k, c)) (.assign ⟨[], k⟩ c.toValue) where
  first := by
    obtain ⟨d, ds, hk, hd, -⟩ := exists_bare h
    exact ⟨d, _, by rw [Layout.line, hk]; rfl, isSolid_of_isBare hd, ne_of_isBare hd (by decide)⟩
  reads rest := by
    have hline : Layout.line (k, c) ++ rest =
        k.toList ++ ' ' :: '=' :: ' ' :: (Layout.content c ++ '\n' :: rest) := by
      simp [Layout.line]
    have hkey : key nestingLimit (Layout.line (k, c) ++ rest) =
        some (⟨[], k⟩, '=' :: ' ' :: (Layout.content c ++ '\n' :: rest)) := by
      rw [hline]
      exact key_bare h (by decide) (by simp [skipSpaces, isSpace]) (by decide)
    have hspace : skipSpaces (' ' :: (Layout.content c ++ '\n' :: rest)) =
        Layout.content c ++ '\n' :: rest := by
      rw [skipSpaces, List.dropWhile_cons_of_pos (by decide), ← skipSpaces, skipSpaces_content]
    have hvalue : value nestingLimit (Layout.content c ++ '\n' :: rest) =
        some (c.toValue, '\n' :: rest) := value_content 78 c rest
    have hassign : assignment (value nestingLimit) (Layout.line (k, c) ++ rest) =
        some ((⟨[], k⟩, c.toValue), '\n' :: rest) := by
      simp [assignment, hkey, after, hspace, hvalue]
    obtain ⟨d, ds, hk, hd, -⟩ := exists_bare h
    have hbracket := ne_of_isBare hd (d := '[') (by decide)
    rw [hline, hk, List.cons_append] at hassign ⊢
    unfold statement
    split
    · next e => exact absurd (List.cons.inj e).1 hbracket
    · next e => exact absurd (List.cons.inj e).1 hbracket
    · simp only [hassign, lineEnd_line, bind, Option.bind]
      cases skip false rest <;> rfl

theorem header_writes {k : String} (h : isBareKey k = true) :
    Writes (Layout.header k) (.table ⟨[], k⟩) where
  first := ⟨_, _, rfl, by decide, by decide⟩
  reads rest := by
    have hkey : key nestingLimit (k.toList ++ ']' :: '\n' :: rest) =
        some (⟨[], k⟩, ']' :: '\n' :: rest) :=
      key_bare h (by decide) (by simp [skipSpaces, isSpace]) (by decide)
    have htext : Layout.header k ++ rest = '[' :: (k.toList ++ ']' :: '\n' :: rest) := by
      simp [Layout.header]
    obtain ⟨d, ds, hk, hd, -⟩ := exists_bare h
    have hbracket := ne_of_isBare hd (d := '[') (by decide)
    rw [htext]
    rw [hk, List.cons_append] at hkey ⊢
    unfold statement
    split
    · next e => exact absurd (List.cons.inj (List.cons.inj e).2).1 hbracket
    · next e =>
      cases e
      simp only [hkey, after, if_true, lineEnd_line, bind, Option.bind]
      cases skip false rest <;> rfl
    · next hno => exact absurd rfl (hno _)

theorem elementHeader_writes {k : String} (h : isBareKey k = true) :
    Writes (Layout.elementHeader k) (.element ⟨[], k⟩) where
  first := ⟨_, _, rfl, by decide, by decide⟩
  reads rest := by
    have hkey : key nestingLimit (k.toList ++ ']' :: ']' :: '\n' :: rest) =
        some (⟨[], k⟩, ']' :: ']' :: '\n' :: rest) :=
      key_bare h (by decide) (by simp [skipSpaces, isSpace]) (by decide)
    have htext : Layout.elementHeader k ++ rest =
        '[' :: '[' :: (k.toList ++ ']' :: ']' :: '\n' :: rest) := by
      simp [Layout.elementHeader]
    rw [htext]
    simp only [statement, hkey, after, if_true, lineEnd_line, bind, Option.bind]
    cases skip false rest <;> rfl

/-! ## Texts of several statements -/

/-- What is left after skipping has nothing more to skip. -/
theorem skip_skip {b : Bool} {cs body : List Char} (h : skip b cs = some body) :
    skip false body = some body := by
  induction cs generalizing b with
  | nil => cases h; rfl
  | cons c cs ih =>
    rw [skip] at h
    split_ifs at h with hline hreturn hends hcomment hprint hspace hsharp
    · exact ih h
    · exact ih h
    · exact ih h
    · exact ih h
    · exact ih h
    · cases h
      exact skip_solid (by simp [isSolid, hline, hreturn, hspace, hsharp]) cs

/-- The text is the statements, up to its end. -/
structure Reads (cs : List Char) (ss : List Statement) : Prop where
  unmarked : cs.head? ≠ some '\ufeff'
  short : ss.length ≤ cs.length
  body : ∃ body, skip false cs = some body ∧
    ∀ n, ss.length < n → statements n body = some ss

theorem reads_nil : Reads [] [] where
  unmarked := by simp
  short := Nat.le_refl 0
  body := by
    refine ⟨[], rfl, fun n hn => ?_⟩
    obtain ⟨n, rfl⟩ := Nat.exists_eq_add_of_lt hn
    simp [statements, skip]

theorem Reads.blank {cs : List Char} {ss : List Statement} (h : Reads cs ss) :
    Reads ('\n' :: cs) ss where
  unmarked := by simp
  short := Nat.le_succ_of_le h.short
  body := by rw [skip_line]; exact h.body

theorem Reads.cons {text cs : List Char} {s : Statement} {ss : List Statement}
    (hw : Writes text s) (h : Reads cs ss) : Reads (text ++ cs) (s :: ss) := by
  obtain ⟨c, ds, rfl, hc, hmark⟩ := hw.first
  obtain ⟨body, hskip, hbody⟩ := h.body
  refine ⟨by simpa using hmark, ?_, c :: (ds ++ cs), skip_solid hc _, fun n hn => ?_⟩
  · have := h.short
    simp only [List.length_cons, List.length_append] at this ⊢
    omega
  · obtain ⟨n, rfl⟩ : ∃ m, n = m + 1 := ⟨n - 1, by omega⟩
    have hsolid := skip_solid hc (ds ++ cs)
    have hfirst := hw.reads cs
    rw [hskip, List.cons_append] at hfirst
    simp [statements, hsolid, hfirst, hbody n (Nat.lt_of_succ_lt_succ hn)]

theorem Reads.parse {cs : List Char} {ss : List Statement} (h : Reads cs ss) :
    Toml.parse (String.ofList cs) = Document.ofStatements ss := by
  obtain ⟨body, hskip, hbody⟩ := h.body
  have hmark : Document.dropOrderMark cs = cs := by
    unfold Document.dropOrderMark
    split
    · exact absurd rfl h.unmarked
    · rfl
  have hall : statements (cs.length + 1) cs = some ss := by
    rw [← hbody (cs.length + 1) (Nat.lt_succ_of_le h.short), statements, statements, hskip,
      skip_skip hskip]
  simp [Toml.parse, String.toList_ofList, hmark, hall]

end SplitPackages.Toml

import Mathlib.Tactic.IntervalCases
import Flowscript.Proofs.Documents.NumeralText

/-! # Written documents are read back

A document that is written over several lines and read again gives the same tree, with two
exceptions: each number is what its own text is read as, and lists and objects below the depth limit
are marked.
-/
namespace Flowscript

namespace Draft

open Text

/-! ## Quoted texts -/

theorem readText_control {c : Char} (h : c.toNat < 0x20) (fuel : Nat) (out rest : List Char) :
    readText (fuel + 1) out (escapeChar c ++ rest) = readText fuel (c :: out) rest := by
  have hc : c = Char.ofNat c.toNat := (Char.ofNat_toNat c).symm
  generalize c.toNat = n at h hc
  subst hc
  interval_cases n <;> rfl

theorem readText_escapeChar (c : Char) (fuel : Nat) (out rest : List Char) :
    readText (fuel + 1) out (escapeChar c ++ rest) = readText fuel (c :: out) rest := by
  by_cases hcontrol : c.toNat < 0x20
  · exact readText_control hcontrol fuel out rest
  · by_cases hquote : c = '"'
    · subst hquote
      rfl
    · by_cases hslash : c = '\\'
      · subst hslash
        rfl
      · simp only [escapeChar, hquote, hslash, hcontrol, if_false, List.cons_append, List.nil_append]
        rw [readText.eq_def]
        split <;> simp_all

theorem escapeChar_length_pos (c : Char) : 0 < (escapeChar c).length := by
  unfold escapeChar
  split
  · exact Nat.succ_pos _
  · split
    · exact Nat.succ_pos _
    · split
      · split <;> exact Nat.succ_pos _
      · exact Nat.succ_pos _

theorem readText_quoted (cs : List Char) (fuel : Nat) (out rest : List Char)
    (h : (cs.flatMap escapeChar).length < fuel) :
    readText fuel out (cs.flatMap escapeChar ++ '"' :: rest)
      = .ok (String.ofList (out.reverse ++ cs), rest) := by
  induction cs generalizing fuel out with
  | nil =>
    obtain ⟨fuel, rfl⟩ := Nat.exists_eq_succ_of_ne_zero (Nat.ne_of_gt h)
    simp [readText]
  | cons c cs ih =>
    have hpos := escapeChar_length_pos c
    rw [List.flatMap_cons, List.length_append] at h
    obtain ⟨fuel, rfl⟩ := Nat.exists_eq_succ_of_ne_zero (Nat.ne_of_gt (Nat.zero_lt_of_lt h))
    rw [List.flatMap_cons, List.append_assoc, readText_escapeChar, ih fuel (c :: out) (by omega)]
    simp

theorem readQuoted_quote (s : String) (fuel : Nat) (rest : List Char) (h : (quote s).length ≤ fuel + 1) :
    readQuoted fuel (s.toList.flatMap escapeChar ++ '"' :: rest) = (.str s, rest) := by
  have hlength : (s.toList.flatMap escapeChar).length < fuel := by
    simp only [quote, List.length_cons, List.length_append] at h
    omega
  rw [readQuoted, readText_quoted s.toList fuel [] rest hlength]
  simp

theorem readKey_quote (s : String) (fuel : Nat) (rest : List Char) (h : (quote s).length ≤ fuel + 1) :
    readKey fuel (s.toList.flatMap escapeChar ++ '"' :: rest) = (.text s, rest) := by
  rw [readKey, readQuoted_quote s fuel rest h]

theorem quote_append (s : String) (rest : List Char) :
    quote s ++ rest = '"' :: (s.toList.flatMap escapeChar ++ '"' :: rest) := by
  simp [quote]

/-! ## Whole documents -/

mutual

/-- What a written document is read back as, at a depth of nesting. -/
def written (depth : Nat) : Json → Draft
  | .null => .null
  | .bool b => .bool b
  | .num n => n.reread
  | .str s => .str s
  | .arr items => bounded depth (.arr (writtenItems (depth + 1) items) none)
  | .obj entries => bounded depth (.obj (writtenEntries (depth + 1) entries) none)

def writtenItems (depth : Nat) : List Json → List Draft
  | [] => []
  | j :: rest => written depth j :: writtenItems depth rest

def writtenEntries (depth : Nat) : List (String × Json) → List (EntryKey × Draft)
  | [] => []
  | (k, j) :: rest => (.text k, written depth j) :: writtenEntries depth rest

end

theorem skipBlanks_newLine (level : Nat) (rest : List Char) :
    skipBlanks (Json.newLine level ++ rest) = skipBlanks rest := by
  unfold skipBlanks Json.newLine
  apply List.dropWhile_append_of_pos
  intro c hc
  rcases List.mem_cons.mp hc with rfl | hc
  · rfl
  · rw [List.eq_of_mem_replicate hc]
    rfl

/-- A document starts with a character that is no blank and does not close a list. -/
theorem prettyChars_head (level : Nat) (j : Json) :
    ∃ c cs, Json.prettyChars level j = c :: cs ∧ isBlank c = false ∧ c ≠ ']' := by
  cases j with
  | null => exact ⟨'n', _, rfl, by decide, by decide⟩
  | bool b => cases b <;> exact ⟨_, _, rfl, by decide, by decide⟩
  | num n =>
    have hchars : Json.prettyChars level (.num n) = n.text.toList := rfl
    rw [hchars]
    rcases n.text_cases with hnull | ⟨m, hm, htext⟩
    · exact ⟨'n', _, hnull, by decide, by decide⟩
    · obtain ⟨c, cs, hcs, hc⟩ := Numeral.chars_head hm
      rw [← htext]
      exact ⟨c, cs, hcs, not_blank_of_numeral hc, fun hbracket => by subst hbracket; revert hc; decide⟩
  | str s => exact ⟨'"', _, rfl, by decide, by decide⟩
  | arr items => cases items <;> exact ⟨'[', _, rfl, by decide, by decide⟩
  | obj entries => cases entries <;> exact ⟨'\x7b', _, rfl, by decide, by decide⟩

theorem stops_prettyItems (level : Nat) (items : List Json) (rest : List Char) :
    Stops (Json.prettyItems level items ++ rest) := by
  cases items <;> exact stops_cons (by decide)

theorem stops_prettyEntries (level : Nat) (entries : List (String × Json)) (rest : List Char) :
    Stops (Json.prettyEntries level entries ++ rest) := by
  cases entries <;> exact stops_cons (by decide)

theorem skipBlanks_prettyChars (level : Nat) (j : Json) (rest : List Char) :
    skipBlanks (Json.prettyChars level j ++ rest) = Json.prettyChars level j ++ rest ∧
      ∃ c cs, Json.prettyChars level j ++ rest = c :: cs ∧ c ≠ ']' := by
  obtain ⟨c, cs, hcs, hblank, hne⟩ := prettyChars_head level j
  rw [hcs, List.cons_append]
  exact ⟨skipBlanks_cons hblank _, c, _, rfl, hne⟩

theorem readItems_item {fuel level depth : Nat} {j : Json} {rest after : List Char} {items : List Draft}
    {ending : Option ReadFault}
    (hitem : readValue fuel depth (Json.prettyChars level j ++ rest) = (written depth j, rest))
    (hitems : readItems fuel depth false rest = (items, ending, after)) :
    readItems (fuel + 1) depth true (Json.newLine level ++ (Json.prettyChars level j ++ rest))
        = (written depth j :: items, ending, after) ∧
      readItems (fuel + 1) depth false (',' :: (Json.newLine level ++ (Json.prettyChars level j ++ rest)))
        = (written depth j :: items, ending, after) := by
  obtain ⟨hskip, c, cs, hcs, hne⟩ := skipBlanks_prettyChars level j rest
  have hcomma : ∀ cs, skipBlanks (',' :: cs) = ',' :: cs := skipBlanks_cons (by decide)
  rw [hcs] at hitem hskip ⊢
  simp [readItems, hcomma, skipBlanks_newLine, hskip, hne, hitem, hitems]

theorem readEntries_entry {fuel level depth : Nat} {k : String} {j : Json} {rest after : List Char}
    {entries : List (EntryKey × Draft)} {ending : Option ReadFault} (hkey : (quote k).length ≤ fuel + 2)
    (hvalue : readValue fuel depth (Json.prettyChars level j ++ rest) = (written depth j, rest))
    (hentries : readEntries fuel depth false rest = (entries, ending, after)) :
    readEntries (fuel + 1) depth true (Json.newLine level ++ (quote k ++ ':' :: ' ' ::
        (Json.prettyChars level j ++ rest))) = ((.text k, written depth j) :: entries, ending, after) ∧
      readEntries (fuel + 1) depth false (',' :: (Json.newLine level ++ (quote k ++ ':' :: ' ' ::
        (Json.prettyChars level j ++ rest)))) = ((.text k, written depth j) :: entries, ending, after) := by
  have hcomma : ∀ cs, skipBlanks (',' :: cs) = ',' :: cs := skipBlanks_cons (by decide)
  have hquote : ∀ cs, skipBlanks ('"' :: cs) = '"' :: cs := skipBlanks_cons (by decide)
  have hcolon : ∀ cs, skipBlanks (':' :: cs) = ':' :: cs := skipBlanks_cons (by decide)
  have hblank : ∀ cs, readValue fuel depth (' ' :: cs) = readValue fuel depth cs := by
    intro cs
    cases fuel <;> rfl
  have hread := fun rest => readKey_quote k (fuel + 1) rest hkey
  simp [readEntries, hcomma, hquote, hcolon, skipBlanks_newLine, quote_append, hread, hblank, hvalue, hentries]

mutual

/-- A written document is read back, and nothing of what follows it. -/
theorem readValue_pretty (j : Json) (level depth fuel : Nat) {rest : List Char}
    (hfuel : 2 * (Json.prettyChars level j).length ≤ fuel) (hrest : Stops rest) :
    readValue fuel depth (Json.prettyChars level j ++ rest) = (written depth j, rest) := by
  have hpos : 0 < (Json.prettyChars level j).length := by
    obtain ⟨c, cs, hcs, -⟩ := prettyChars_head level j
    rw [hcs]
    exact Nat.succ_pos _
  obtain ⟨fuel, rfl⟩ : ∃ n, fuel = n + 2 := ⟨fuel - 2, by omega⟩
  match j with
  | .null => rfl
  | .bool true => rfl
  | .bool false => rfl
  | .num n => exact n.readValue_text (fuel + 1) depth hrest
  | .str s =>
    have hchars : Json.prettyChars level (.str s) = quote s := rfl
    rw [hchars] at hfuel ⊢
    rw [quote_append, readValue, skipBlanks_cons (by decide)]
    exact readQuoted_quote s (fuel + 2) rest (by omega)
  | .arr [] => rfl
  | .arr (j :: items) =>
    simp only [Json.prettyChars, List.length_cons, List.length_append] at hfuel
    have hitem := readValue_pretty j (level + 1) (depth + 1) fuel (by omega)
      (stops_prettyItems level items rest)
    have hitems := readItems_pretty items level (depth + 1) fuel rest (by omega)
    simp only [Json.prettyChars, List.cons_append, List.append_assoc]
    rw [readValue, skipBlanks_cons (by decide)]
    simp only [(readItems_item hitem hitems).1]
    rfl
  | .obj [] => rfl
  | .obj ((k, j) :: entries) =>
    simp only [Json.prettyChars, List.length_cons, List.length_append] at hfuel
    have hvalue := readValue_pretty j (level + 1) (depth + 1) fuel (by omega)
      (stops_prettyEntries level entries rest)
    have hentries := readEntries_pretty entries level (depth + 1) fuel rest (by omega)
    simp only [Json.prettyChars, List.cons_append, List.append_assoc]
    rw [readValue, skipBlanks_cons (by decide)]
    have hkey : (quote k).length ≤ fuel + 2 := by omega
    simp only [(readEntries_entry hkey hvalue hentries).1]
    rfl

theorem readItems_pretty (items : List Json) (level depth fuel : Nat) (rest : List Char)
    (hfuel : 2 * (Json.prettyItems level items).length ≤ fuel) :
    readItems fuel depth false (Json.prettyItems level items ++ rest)
      = (writtenItems depth items, none, rest) := by
  match items with
  | [] =>
    simp only [Json.prettyItems, List.length_append, List.length_cons] at hfuel
    obtain ⟨fuel, rfl⟩ : ∃ n, fuel = n + 1 := ⟨fuel - 1, by omega⟩
    have hclose : ∀ cs, skipBlanks (']' :: cs) = ']' :: cs := skipBlanks_cons (by decide)
    simp [Json.prettyItems, readItems, skipBlanks_newLine, hclose, writtenItems]
  | j :: items =>
    simp only [Json.prettyItems, List.length_cons, List.length_append] at hfuel
    obtain ⟨fuel, rfl⟩ : ∃ n, fuel = n + 1 := ⟨fuel - 1, by omega⟩
    have hitem := readValue_pretty j (level + 1) depth fuel (by omega) (stops_prettyItems level items rest)
    have hitems := readItems_pretty items level depth fuel rest (by omega)
    simpa only [Json.prettyItems, writtenItems, List.cons_append, List.append_assoc] using
      (readItems_item hitem hitems).2

theorem readEntries_pretty (entries : List (String × Json)) (level depth fuel : Nat) (rest : List Char)
    (hfuel : 2 * (Json.prettyEntries level entries).length ≤ fuel) :
    readEntries fuel depth false (Json.prettyEntries level entries ++ rest)
      = (writtenEntries depth entries, none, rest) := by
  match entries with
  | [] =>
    simp only [Json.prettyEntries, List.length_append, List.length_cons] at hfuel
    obtain ⟨fuel, rfl⟩ : ∃ n, fuel = n + 1 := ⟨fuel - 1, by omega⟩
    have hclose : ∀ cs, skipBlanks ('\x7d' :: cs) = '\x7d' :: cs := skipBlanks_cons (by decide)
    simp [Json.prettyEntries, readEntries, skipBlanks_newLine, hclose, writtenEntries]
  | (k, j) :: entries =>
    simp only [Json.prettyEntries, List.length_cons, List.length_append] at hfuel
    obtain ⟨fuel, rfl⟩ : ∃ n, fuel = n + 1 := ⟨fuel - 1, by omega⟩
    have hvalue := readValue_pretty j (level + 1) depth fuel (by omega)
      (stops_prettyEntries level entries rest)
    have hentries := readEntries_pretty entries level depth fuel rest (by omega)
    simpa only [Json.prettyEntries, writtenEntries, List.cons_append, List.append_assoc] using
      (readEntries_entry (by omega) hvalue hentries).2

end

theorem read_pretty (j : Json) : read j.pretty = (written 0 j, none) := by
  have hread := readValue_pretty j 0 0 (2 * (Json.prettyChars 0 j).length + 2) (by omega) stops_nil
  rw [List.append_nil] at hread
  simp [read, Json.pretty, hread, skipBlanks]

theorem interpret_pretty {α : Type} (decode : Draft → Except ReadFault α) (j : Json) :
    interpret decode j.pretty = decode (written 0 j) := by
  simp only [interpret, read_pretty]
  cases decode (written 0 j) <;> rfl

end Draft

end Flowscript

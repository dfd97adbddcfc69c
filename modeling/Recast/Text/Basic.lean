-- SUMMARY: Operations on text that the rest of the library shares: what follows or precedes a given piece, the part before and after a separator, trimming, ASCII lower case, sizes in bytes.
import Recast.Text.Letter

/-! # Text

Texts are `String`s. Each operation here is defined on the list of characters, so that facts
about it are facts about lists. Sizes and offsets count UTF-8 bytes. -/

namespace Recast.Text

/-- The number of bytes that a list of characters takes. -/
def byteSize : List Char → Nat
  | [] => 0
  | c :: cs => c.utf8Size + byteSize cs

@[simp] theorem byteSize_nil : byteSize [] = 0 := rfl

@[simp] theorem byteSize_cons (c : Char) (cs : List Char) :
    byteSize (c :: cs) = c.utf8Size + byteSize cs := rfl

@[simp] theorem byteSize_append (xs ys : List Char) :
    byteSize (xs ++ ys) = byteSize xs + byteSize ys := by
  induction xs with
  | nil => simp
  | cons c cs ih => simp [ih, Nat.add_assoc]

/-! ## Pieces at either end -/

/-- What follows `head` in a list that starts with it. -/
def dropHead? : (head cs : List Char) → Option (List Char)
  | [], cs => some cs
  | _ :: _, [] => none
  | h :: hs, c :: cs => if h = c then dropHead? hs cs else none

theorem dropHead?_eq_some_iff {head cs rest : List Char} :
    dropHead? head cs = some rest ↔ cs = head ++ rest := by
  induction head generalizing cs with
  | nil => simp [dropHead?, eq_comm]
  | cons h hs ih =>
    cases cs with
    | nil => simp [dropHead?]
    | cons c cs =>
      by_cases hc : h = c
      · simp [dropHead?, hc, ih]
      · simp [dropHead?, hc, Ne.symm hc]

/-- The text after `head`, when `text` starts with `head`. -/
def after? (head text : String) : Option String :=
  (dropHead? head.toList text.toList).map String.ofList

/-- The text before `tail`, when `text` ends with `tail`. -/
def before? (tail text : String) : Option String :=
  (dropHead? tail.toList.reverse text.toList.reverse).map fun cs => String.ofList cs.reverse

/-- True when `text` starts with `head`. -/
def startsWith (text head : String) : Bool :=
  (after? head text).isSome

/-- True when `text` ends with `tail`. -/
def endsWith (text tail : String) : Bool :=
  (before? tail text).isSome

/-- True when `piece` occurs somewhere in a list of characters. -/
def occursIn (piece : List Char) : List Char → Bool
  | [] => piece.isEmpty
  | c :: cs => (dropHead? piece (c :: cs)).isSome || occursIn piece cs

theorem occursIn_eq_true_iff {piece cs : List Char} : occursIn piece cs = true ↔ piece <:+: cs := by
  induction cs with
  | nil => simp [occursIn]
  | cons c cs ih =>
    have hhead : (dropHead? piece (c :: cs)).isSome = true ↔ piece <+: c :: cs := by
      rw [Option.isSome_iff_exists]
      exact exists_congr fun rest => dropHead?_eq_some_iff.trans eq_comm
    rw [occursIn, Bool.or_eq_true, hhead, ih, List.infix_cons_iff]

/-- True when `piece` occurs somewhere in `text`. -/
def contains (text piece : String) : Bool :=
  occursIn piece.toList text.toList

theorem contains_eq_true_iff {text piece : String} :
    contains text piece = true ↔ piece.toList <:+: text.toList :=
  occursIn_eq_true_iff

@[simp] theorem contains_self (text : String) : contains text text = true :=
  contains_eq_true_iff.2 (List.infix_refl _)

theorem contains_append_left {text piece : String} (h : contains text piece = true)
    (more : String) : contains (text ++ more) piece = true := by
  rw [contains_eq_true_iff, String.toList_append]
  exact (contains_eq_true_iff.1 h).trans (List.prefix_append _ _).isInfix

theorem contains_append_right {text piece : String} (h : contains text piece = true)
    (more : String) : contains (more ++ text) piece = true := by
  rw [contains_eq_true_iff, String.toList_append]
  exact (contains_eq_true_iff.1 h).trans (List.suffix_append _ _).isInfix

/-! ## Separators -/

/-- The parts before and after the last occurrence of `mark`. -/
def splitLast? (mark : Char) (text : String) : Option (String × String) :=
  let tail := text.toList.reverse
  match tail.dropWhile (· ≠ mark) with
  | [] => none
  | _ :: head => some (String.ofList head.reverse, String.ofList (tail.takeWhile (· ≠ mark)).reverse)

/-- The parts before and after the first occurrence of `mark`. -/
def splitFirst? (mark : Char) (text : String) : Option (String × String) :=
  match text.toList.dropWhile (· ≠ mark) with
  | [] => none
  | _ :: tail => some (String.ofList (text.toList.takeWhile (· ≠ mark)), String.ofList tail)

/-- A dotted name as qualifier and last part; the qualifier of a plain name is empty. -/
def splitName (name : String) : String × String :=
  (splitLast? '.' name).getD ("", name)

/-- A qualifier and a name joined by a dot; an empty qualifier is left out. -/
def qualify (qualifier name : String) : String :=
  if qualifier.isEmpty then name else qualifier ++ "." ++ name

/-- True when a dotted name is `root` or continues it after a dot. -/
def isUnder (root name : String) : Bool :=
  name == root || ((after? root name).map (startsWith · ".")).getD false

/-! ## Trimming and case -/

/-- The text without blanks at its end. -/
def trimEnd (text : String) : String :=
  String.ofList (text.toList.reverse.dropWhile isBlank).reverse

/-- The text without blanks at its start. -/
def trimStart (text : String) : String :=
  String.ofList (text.toList.dropWhile isBlank)

/-- The text without blanks at either end. -/
def trim (text : String) : String :=
  trimEnd (trimStart text)

/-- A character with an ASCII capital made small. -/
def lowerChar (c : Char) : Char :=
  if 'A' ≤ c && c ≤ 'Z' then Char.ofNat (c.toNat + 32) else c

/-- The text with its ASCII capitals made small. -/
def lower (text : String) : String :=
  String.ofList (text.toList.map lowerChar)

/-- The texts with `mark` between neighbours. -/
def joinWith (mark : String) : List String → String
  | [] => ""
  | [text] => text
  | text :: rest => text ++ mark ++ joinWith mark rest

theorem contains_joinWith {mark text : String} {texts : List String} (h : text ∈ texts) :
    contains (joinWith mark texts) text = true := by
  induction texts with
  | nil => cases h
  | cons first rest ih =>
    cases rest with
    | nil => simp [joinWith, List.mem_singleton.1 h]
    | cons second rest =>
      rcases List.mem_cons.1 h with rfl | h
      · exact contains_append_left (contains_append_left (contains_self _) _) _
      · exact contains_append_right (ih h) _

/-- All texts, one after the other. -/
def concat (texts : List String) : String :=
  texts.foldr (· ++ ·) ""

@[simp] theorem concat_nil : concat [] = "" := rfl

@[simp] theorem concat_cons (text : String) (rest : List String) :
    concat (text :: rest) = text ++ concat rest := rfl

@[simp] theorem concat_append (xs ys : List String) :
    concat (xs ++ ys) = concat xs ++ concat ys := by
  induction xs with
  | nil => simp
  | cons x xs ih => simp [ih, String.append_assoc]

end Recast.Text

/-
Quoting.  A quoted run starts at `'` or `"` and lasts until the same mark comes
again, or until the end of the text.  `Quote` is what a left-to-right scan has
to remember about it; every scan of a markup text reads its characters through
`Quote.feed`, so all of them agree on what is literal.
-/

namespace Espalier.Text

/-- The two quote marks. -/
def isQuoteMark (c : Char) : Bool :=
  c == '\'' || c == '"'

theorem isQuoteMark_iff {c : Char} : isQuoteMark c ↔ c = '\'' ∨ c = '"' := by
  simp [isQuoteMark]

/-- Where a scan stands between two characters: outside quotes, or inside a run
that the given mark opened. -/
inductive Quote where
  | outside
  | inside (mark : Char)
deriving DecidableEq, Repr, Inhabited

namespace Quote

/-- Whether the next character is literal: it is a quote mark, or it lies
between quote marks. -/
def literal : Quote → Char → Bool
  | outside, c => isQuoteMark c
  | inside _, _ => true

/-- Where the scan stands after the next character.  Inside a run only the mark
that opened it matters. -/
def next : Quote → Char → Quote
  | outside, c => if isQuoteMark c then inside c else outside
  | inside mark, c => if c = mark then outside else inside mark

/-- Read one character: whether it is literal, and where the scan stands then. -/
def feed (quote : Quote) (c : Char) : Bool × Quote :=
  (quote.literal c, quote.next c)

/-- Where a scan stands after a text. -/
def after (quote : Quote) (cs : List Char) : Quote :=
  cs.foldl next quote

/-- For each character of a text, whether it is literal. -/
def mask : Quote → List Char → List Bool
  | _, [] => []
  | quote, c :: cs => quote.literal c :: mask (quote.next c) cs

@[simp] theorem after_nil (quote : Quote) : quote.after [] = quote := rfl

@[simp] theorem after_cons (quote : Quote) (c : Char) (cs : List Char) :
    quote.after (c :: cs) = (quote.next c).after cs := rfl

theorem after_append (quote : Quote) (front back : List Char) :
    quote.after (front ++ back) = (quote.after front).after back := by
  simp [after]

@[simp] theorem length_mask (quote : Quote) (cs : List Char) :
    (quote.mask cs).length = cs.length := by
  induction cs generalizing quote with
  | nil => rfl
  | cons c cs ih => simp [mask, ih]

theorem mask_append (quote : Quote) (front back : List Char) :
    quote.mask (front ++ back) = quote.mask front ++ (quote.after front).mask back := by
  induction front generalizing quote with
  | nil => rfl
  | cons c cs ih => simp [mask, ih]

/-- An unquoted character is no quote mark and leaves the scan outside. -/
theorem next_eq_outside_of_not_literal {quote : Quote} {c : Char}
    (h : quote.literal c = false) : quote = outside ∧ quote.next c = outside := by
  cases quote with
  | outside => simp_all [literal, next]
  | inside mark => simp [literal] at h

end Quote

/-- Take one layer of matching quote marks off a text.  A lone mark, or two
different ones, are ordinary characters. -/
def unquote (cs : List Char) : List Char :=
  match cs with
  | [] => []
  | mark :: rest =>
      if isQuoteMark mark && rest.getLast? == some mark then rest.dropLast else cs

/-- A text between two equal marks loses exactly these. -/
theorem unquote_quoted {mark : Char} (hmark : isQuoteMark mark) (cs : List Char) :
    unquote (mark :: (cs ++ [mark])) = cs := by
  simp [unquote, hmark]

/-- A text that does not begin with a quote mark stays as it is. -/
theorem unquote_of_head {c : Char} (hc : isQuoteMark c = false) (cs : List Char) :
    unquote (c :: cs) = c :: cs := by
  simp [unquote, hc]

end Espalier.Text

namespace TreeCalc.Text

/-- White space in the sense of Unicode: five ASCII controls, the space, and seventeen spaces and separators
beyond ASCII, with the next-line control and the no-break space. -/
def isBlank (c : Char) : Bool :=
  let n := c.toNat
  (9 ≤ n && n ≤ 13) || n == 0x20 || n == 0x85 || n == 0xa0 || n == 0x1680 || (0x2000 ≤ n && n ≤ 0x200a) ||
    n == 0x2028 || n == 0x2029 || n == 0x202f || n == 0x205f || n == 0x3000

/-- The characters of Unicode that are white space, one by one. -/
def whiteSpace : List Char :=
  ['\t', '\n', '\x0b', '\x0c', '\r', ' ', '\u0085', '\u00a0', '\u1680', '\u2000', '\u2001', '\u2002', '\u2003',
    '\u2004', '\u2005', '\u2006', '\u2007', '\u2008', '\u2009', '\u200a', '\u2028', '\u2029', '\u202f',
    '\u205f', '\u3000']

theorem isBlank_iff_mem {c : Char} : isBlank c = true ↔ c ∈ whiteSpace := by
  simp only [isBlank, whiteSpace, List.mem_cons, List.not_mem_nil, or_false, ← Char.toNat_inj, Char.reduceToNat,
    Bool.or_eq_true, Bool.and_eq_true, beq_iff_eq, decide_eq_true_eq]
  omega

/-- The maximal runs of characters that are no separators, from left to right. -/
def runs (separator : Char → Bool) (text : List Char) : List (List Char) :=
  (text.splitOnP separator).filter fun run => !run.isEmpty

end TreeCalc.Text

import DocxTemplate.Text.Utf8
import DocxTemplate.Text.Scan

/-! # Tag tokens

    The passes over a document look for the start of a tag, such as `<w:t` or `</w:r`,
    without parsing the document. A token counts only where its name ends, so `<w:t` is
    not found in `<w:tab/>`.

    * `tokenIndex?`: the first whole token of a text.
    * `tokenScan`: the scan behind it, which restarts after each place where the name
      goes on.
    * `tokenIndex?_add_length_lt`: something follows a token that is found.
-/

namespace DocxTemplate.Sanitize

/-- Whether a byte ends a name inside a tag. -/
def endsName (b : UInt8) : Bool :=
  b == '/'.toUInt8 || b == '>'.toUInt8 || isSpace b

/-- Looks for `token` with the end of a name behind it. A state is the number of bytes
    passed over and the text still to be searched. -/
def tokenScan (token : Bytes) : Scan (Nat × Bytes) (Option Nat) where
  next := fun (passed, text) =>
    match Bytes.indexOf? token text with
    | none => .done none
    | some i =>
      match text.drop (i + token.length) with
      | [] => .done none
      | b :: _ =>
        if endsName b then .done (some (passed + i))
        else
          -- A longer name, such as `<w:tab` for `<w:t`.
          let skip := i + max 1 token.length
          .more (passed + skip, text.drop skip)
  left := fun (_, text) => text.length
  left_lt := by
    intro (passed, text) t h
    dsimp only at h
    split at h
    · simp at h
    · next i hi =>
      split at h
      · simp at h
      · next b rest hd =>
        split at h
        · simp at h
        · have hlen := congrArg List.length hd
          simp only [List.length_drop, List.length_cons] at hlen
          simp only [Step.more.injEq] at h
          subst h
          simp only [List.length_drop]
          omega

/-- The position of the first `token` in a text that has a delimiter behind it. -/
def tokenIndex? (token text : Bytes) : Option Nat :=
  (tokenScan token).run (0, text)

/-- The same search from a position on. There is nothing to find from a position beyond
    the end or inside a character. -/
def tokenIndexFrom? (token text : Bytes) (start : Nat) : Option Nat :=
  if Utf8.isBoundary text start then (tokenIndex? token (text.drop start)).map (· + start)
  else none

/-- A token that is found has a byte behind it. -/
theorem tokenIndex?_add_length_lt {token text : Bytes} {i : Nat}
    (h : tokenIndex? token text = some i) : i + token.length < text.length := by
  have key : ∀ j, (tokenScan token).run (0, text) = some j → j + token.length < text.length := by
    refine Scan.run_induction
      (P := fun s => s.1 + s.2.length = text.length)
      (Q := fun r => ∀ j, r = some j → j + token.length < text.length) ?_ ?_ (0, text) (by simp)
    · intro (passed, s) t hs hnext
      simp only [tokenScan] at hnext
      split at hnext
      · simp at hnext
      · split at hnext
        · simp at hnext
        · next b rest hd =>
          split at hnext
          · simp at hnext
          · have hlen := congrArg List.length hd
            simp only [List.length_drop, List.length_cons] at hlen
            simp only [Step.more.injEq] at hnext
            subst hnext
            simp only [List.length_drop] at hs ⊢
            omega
    · intro (passed, s) r hs hnext j hj
      subst hj
      simp only [tokenScan] at hnext
      split at hnext
      · simp at hnext
      · split at hnext
        · simp at hnext
        · next b rest hd =>
          split at hnext
          · have hlen := congrArg List.length hd
            simp only [List.length_drop, List.length_cons] at hlen
            simp only [Step.done.injEq, Option.some.injEq] at hnext
            simp only at hs
            omega
          · simp at hnext
  exact key i h

end DocxTemplate.Sanitize

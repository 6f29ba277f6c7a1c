import HostedLisp.Proofs.Reading.Places

/-!
# Where scanning fails

Scanning fails at the first lexeme that cannot be cut off, and what it reports is the place where
that lexeme begins, however far behind the fault is found. The text before that place is cut into
pieces as a text of its own, and the text from there on fails by itself for the same reason.

* `Faulty` -- no lexeme can be cut off at the beginning of the text;
* `exists_faulty_of_error` -- a text that fails is cut into pieces up to a faulty rest;
* `Cuts.upTo_newline` -- a line break keeps what is before it from what is behind it;
* `scan_fails_at_lexeme` -- **failures of scanning are exact and local**.
-/

namespace HostedLisp

/-- The position some lines further down. -/
def Position.down (n : Nat) (p : Position) : Position := ⟨p.line + n, p.column⟩

namespace Token

/-! ## 1. Faulty beginnings -/

/-- The text begins with neither a blank nor a comment, and no lexeme can be cut off there. -/
inductive Faulty : List Char → SyntaxFault → Prop where
  | cut {c : Char} {cs : List Char} {fault : SyntaxFault} (hb : isBlank c = false) (hc : c ≠ ';')
      (h : Token.cut c cs = .error fault) : Faulty (c :: cs) fault

theorem Faulty.scanFrom_eq {text : List Char} {fault : SyntaxFault} (h : Faulty text fault)
    (p : Position) : scanFrom p text = .error (.unreadable p fault) := by
  cases h with
  | cut hb hc h => rw [scanFrom, if_neg (by rw [hb]; decide), if_neg hc, h]

/-- **A text that fails is cut into pieces up to a faulty rest**, along the scanner's own
    recursion. -/
theorem exists_faulty_of_error {p : Position} {text : List Char} {e : Error}
    (h : scanFrom p text = .error e) :
    ∃ ps rest fault, CutsUpTo text ps rest ∧ Faulty rest fault := by
  fun_induction scanFrom p text generalizing e with
  | case1 p => cases h
  | case2 p c cs hc ih =>
    obtain ⟨ps, rest, fault, hps, hfault⟩ := ih h
    have hp : (Piece.skipped [c]).Valid := Skipped.blank hc
    exact ⟨_, rest, fault, .cons hp (longest_blank hc cs) hps, hfault⟩
  | case3 p cs _ ih =>
    obtain ⟨ps, rest, fault, hps, hfault⟩ := ih h
    obtain ⟨hcs, hend⟩ := comment_ends cs
    have hp : (Piece.skipped (';' :: cs.takeWhile fun c => decide (c ≠ '\n'))).Valid :=
      Skipped.comment hcs
    have hcuts := CutsUpTo.cons hp ((longest_comment_iff hcs).2 hend) hps
    rw [Piece.text, List.cons_append, List.takeWhile_append_dropWhile] at hcuts
    exact ⟨_, rest, fault, hcuts, hfault⟩
  | case4 p c cs hb hc fault hcut =>
    exact ⟨[], c :: cs, fault, .nil, .cut (by simpa using hb) hc hcut⟩
  | case5 p c cs hb hc k hcut e' he ih =>
    obtain ⟨ps, rest, fault, hps, hfault⟩ := ih he
    obtain ⟨hp, hl⟩ := (Begins.cut k (by simpa using hb) hc hcut).longest
    have hcuts := CutsUpTo.cons hp hl hps
    rw [show (Piece.lexeme k.kind k.lexeme).text ++ k.rest = c :: cs from k.append_eq] at hcuts
    exact ⟨_, rest, fault, hcuts, hfault⟩
  | case6 => cases h

/-! ## 2. Line breaks -/

/-- A line break ends the last piece of a text, whatever comes behind it. -/
theorem Cuts.upTo_newline {a : List Char} {ps : List Piece} (h : Cuts a ps) (t : List Char) :
    CutsUpTo (a ++ '\n' :: t) (ps ++ [.skipped ['\n']]) t := by
  induction h with
  | nil =>
    have hp : (Piece.skipped ['\n']).Valid := Skipped.blank rfl
    exact .cons hp (longest_blank rfl t) .nil
  | @cons p rest ps hp hl _ ih =>
    rw [List.append_assoc, List.cons_append]
    exact .cons hp (hl.append_newline t) ih

theorem countedFrom_newline (a : List Char) :
    (Position.behind (a ++ ['\n'])).countedFrom = .down (a.count '\n' + 1) := by
  funext p
  rw [Position.behind_concat, Position.behind, Position.after, if_pos rfl, Position.countedFrom,
    Position.down]
  split
  · rename_i hp
    rw [hp, Nat.zero_add, Nat.zero_add]
  · rw [Nat.add_comm]

/-- **A text behind a line break is scanned as a text of its own**, some lines further down. -/
theorem Cuts.scan_append_newline {a : String} {ps : List Piece} (h : Cuts a.toList ps)
    (t : String) :
    scan (a ++ "\n" ++ t)
      = (movedScan (.down (a.toList.count '\n' + 1)) (scan t)).map (tokensOf [] ps ++ ·) := by
  have htext : (a ++ "\n" ++ t).toList = a.toList ++ '\n' :: t.toList := by simp
  have hpieces : (ps ++ [Piece.skipped ['\n']]).flatMap Piece.text = a.toList ++ ['\n'] := by
    rw [List.flatMap_append, h.flatMap_text]
    rfl
  have htokens : tokensOf [] (ps ++ [.skipped ['\n']]) = tokensOf [] ps := by
    rw [tokensOf_append]
    exact List.append_nil _
  have hscan := (h.upTo_newline t.toList).scanFrom_eq []
  rw [List.nil_append, hpieces, htokens, scanFrom_behind (a.toList ++ ['\n']),
    countedFrom_newline] at hscan
  rw [scan, htext]
  exact hscan

/-! ## 3. The failure -/

/-- **Failures of scanning are exact and local.** Where a text cannot be scanned there is one place
    that has the reported position, and for the texts `a` and `b` before and behind it:

    * `a` is scanned by itself;
    * `b` fails by itself, at its start, for the same reason;
    * behind `a` and a line break any text is scanned as it is by itself, further down by the lines
      of `a` and one more, be it to tokens or to a failure. -/
theorem scan_fails_at_lexeme {source : String} {e : Error} (h : scan source = .error e) :
    ∃ (p : Position) (fault : SyntaxFault) (a b : String),
      e = .unreadable p fault ∧ source = a ++ b ∧
      (∀ a' b' : String, source = a' ++ b' → (Position.behind a'.toList = p ↔ a' = a)) ∧
      ∃ ts, scan a = .ok (ts ++ [endOf a.toList]) ∧ scan b = .error (.unreadable .start fault) ∧
        ∀ t, scan (a ++ "\n" ++ t)
          = (movedScan (.down (a.toList.count '\n' + 1)) (scan t)).map (ts ++ ·) := by
  obtain ⟨ps, rest, fault, hps, hfault⟩ := exists_faulty_of_error h
  obtain ⟨a, ha⟩ : ∃ a : String, a.toList = ps.flatMap Piece.text := ⟨_, String.toList_ofList⟩
  obtain ⟨b, rfl⟩ : ∃ b : String, b.toList = rest := ⟨_, String.toList_ofList⟩
  have hcuts : Cuts a.toList ps := ha ▸ hps.cuts
  have hsource : source = a ++ b := by
    rw [← String.toList_inj, String.toList_append, ha, hps.text_eq]
  have hscan := hps.scanFrom_eq []
  rw [List.nil_append, hfault.scanFrom_eq, ← ha] at hscan
  refine ⟨_, fault, a, b, Except.error.inj (h.symm.trans hscan), hsource, ?_, tokensOf [] ps,
    scan_eq_ok_iff.2 ⟨ps, hcuts, rfl⟩, hfault.scanFrom_eq _, hcuts.scan_append_newline⟩
  intro a' b' hsplit
  have hboth : a'.toList ++ b'.toList = a.toList ++ b.toList := by
    rw [← String.toList_append, ← String.toList_append, ← hsplit, hsource]
  refine ⟨fun hp => ?_, fun hp => by rw [hp]⟩
  exact String.toList_inj.1 (Position.behind_injective hboth hp)

/-- A string literal on two lines with a fault on the second one, behind a comment. -/
theorem scan_fails_at_lexeme_string :
    let a := "(a ; b\n "
    let b := "\"c\n\\q\")"
    scan (a ++ b) = .error (.unreadable ⟨1, 1⟩ (.invalidEscape 'q')) ∧
      ∃ ts, scan a = .ok (ts ++ [endOf a.toList]) ∧
        scan b = .error (.unreadable .start (.invalidEscape 'q')) ∧
        ∀ t, scan (a ++ "\n" ++ t) = (movedScan (.down 2) (scan t)).map (ts ++ ·) := by
  intro a b
  have hscan : scan (a ++ b) = .error (.unreadable ⟨1, 1⟩ (.invalidEscape 'q')) := by cbv
  refine ⟨hscan, ?_⟩
  obtain ⟨p, fault, a', b', he, hsource, hplace, hlocal⟩ := scan_fails_at_lexeme hscan
  cases he
  obtain rfl : a = a' := (hplace a b rfl).1 (by decide)
  obtain rfl : b = b' := (String.append_right_inj a).1 hsource
  have hlines : a.toList.count '\n' + 1 = 2 := by decide
  rwa [hlines] at hlocal

end Token

end HostedLisp

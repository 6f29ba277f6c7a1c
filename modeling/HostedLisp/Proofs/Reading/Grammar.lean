import HostedLisp.Expression.Items
import HostedLisp.Program

/-!
# The grammar of programs

    expression ::= atom | quote expression | "(" expression* ")"

A derivation is a tree. A `Tree` derives one expression, a `Forest` a sequence of them; each has
the tokens it is a derivation of and the data it denotes.

* `read_tree`, `read_forest` -- the reading machine takes the tokens of a derivation and delivers
  what it denotes, whatever it is in the middle of;
* `Forest.body_append` -- a derivation reaches up to the first end mark behind it;
* `Forest.eq_of_tokens_eq` -- the tokens determine the derivation, so the grammar is unambiguous.
-/

namespace HostedLisp.Program

/-! ## 1. Derivations -/

/-- What a token denotes by itself: a literal its value, a symbol the symbol that it spells. -/
inductive Denotes (t : Token) : Datum → Prop where
  | number {x : Float} (h : t.kind = .number x) : Denotes t (.number x)
  | boolean {b : Bool} (h : t.kind = .boolean b) : Denotes t (.boolean b)
  | string {s : String} (h : t.kind = .string s) : Denotes t (.string s)
  | symbol (h : t.kind = .symbol) : Denotes t (.symbol t.lexeme)

mutual

/-- A derivation of an expression. -/
inductive Tree where
  | atom (t : Token) (e : Datum) (h : Denotes t e)
  | quote (t : Token) (h : t.kind = .quote) (inner : Tree)
  | list (opening : Token) (ho : opening.kind = .leftBracket) (items : Forest) (closing : Token)
      (hc : closing.kind = .rightBracket)

/-- A derivation of a sequence of expressions. -/
inductive Forest where
  | nil
  | cons (first : Tree) (rest : Forest)

end

mutual

/-- The tokens that a tree derives. -/
def Tree.tokens : Tree → List Token
  | .atom t _ _ => [t]
  | .quote t _ inner => t :: inner.tokens
  | .list opening _ items closing _ => opening :: (items.tokens ++ [closing])

/-- The tokens that a forest derives. -/
def Forest.tokens : Forest → List Token
  | .nil => []
  | .cons first rest => first.tokens ++ rest.tokens

end

mutual

/-- The expression that a tree denotes. A quote mark denotes the list of the quote keyword and what
    it stands before, brackets denote the proper list of what they hold. -/
def Tree.datum : Tree → Datum
  | .atom _ e _ => e
  | .quote _ _ inner => .ofItems [.symbol Keyword.quote.name, inner.datum]
  | .list _ _ items _ _ => .ofItems items.data

/-- The expressions that a forest denotes. -/
def Forest.data : Forest → List Datum
  | .nil => []
  | .cons first rest => first.datum :: rest.data

end

/-! ## 2. Reading a derivation -/

section Steps

variable {t : Token} (finish : Position) (ts : List Token) (stack : List Pending)
  (done : List Datum)

theorem read_leftBracket (h : t.kind = .leftBracket) :
    read finish (t :: ts) stack done = read finish ts (.list [] :: stack) done := by
  obtain ⟨kind, lexeme, position⟩ := t
  cases h
  rfl

theorem read_quote (h : t.kind = .quote) :
    read finish (t :: ts) stack done = read finish ts (.quote :: stack) done := by
  obtain ⟨kind, lexeme, position⟩ := t
  cases h
  rfl

theorem read_rightBracket (h : t.kind = .rightBracket) (items : List Datum) :
    read finish (t :: ts) (.list items :: stack) done
      = read finish ts (deliver (.ofItems items.reverse) stack done).1
          (deliver (.ofItems items.reverse) stack done).2 := by
  obtain ⟨kind, lexeme, position⟩ := t
  cases h
  rfl

/-- A token that denotes something is delivered at once. -/
theorem read_atom {e : Datum} (h : Denotes t e) :
    read finish (t :: ts) stack done
      = read finish ts (deliver e stack done).1 (deliver e stack done).2 := by
  obtain ⟨kind, lexeme, position⟩ := t
  cases h with
  | number h | boolean h | string h | symbol h =>
    cases h
    rfl

end Steps

mutual

/-- **The machine reads a tree** and delivers what it denotes. -/
theorem read_tree : ∀ (T : Tree) (finish : Position) (ts : List Token) (stack : List Pending)
    (done : List Datum),
    read finish (T.tokens ++ ts) stack done
      = read finish ts (deliver T.datum stack done).1 (deliver T.datum stack done).2
  | .atom t e h, finish, ts, stack, done => read_atom finish ts stack done h
  | .quote t h inner, finish, ts, stack, done => by
    rw [Tree.tokens, List.cons_append, read_quote _ _ _ _ h]
    exact read_tree inner finish ts (.quote :: stack) done
  | .list opening ho items closing hc, finish, ts, stack, done => by
    rw [Tree.tokens, List.cons_append, read_leftBracket _ _ _ _ ho, List.append_assoc,
      read_items items finish, List.singleton_append, read_rightBracket _ _ _ _ hc,
      List.append_nil, List.reverse_reverse]
    rfl

/-- The machine reads a forest inside brackets. -/
theorem read_items : ∀ (F : Forest) (finish : Position) (ts : List Token) (items : List Datum)
    (outer : List Pending) (done : List Datum),
    read finish (F.tokens ++ ts) (.list items :: outer) done
      = read finish ts (.list (F.data.reverse ++ items) :: outer) done
  | .nil, _, _, _, _, _ => rfl
  | .cons first rest, finish, ts, items, outer, done => by
    rw [Forest.tokens, List.append_assoc, read_tree first finish, deliver,
      read_items rest finish, Forest.data, List.reverse_cons, List.append_assoc,
      List.singleton_append]

end

/-- **The machine reads a forest** that stands by itself. -/
theorem read_forest : ∀ (F : Forest) (finish : Position) (ts : List Token) (done : List Datum),
    read finish (F.tokens ++ ts) [] done = read finish ts [] (F.data.reverse ++ done)
  | .nil, _, _, _ => rfl
  | .cons first rest, finish, ts, done => by
    rw [Forest.tokens, List.append_assoc, read_tree first finish, deliver,
      read_forest rest finish, Forest.data, List.reverse_cons, List.append_assoc,
      List.singleton_append]

/-! ## 3. End marks -/

theorem isFinish_iff {t : Token} : t.isFinish = true ↔ t.kind = .finish := by
  unfold Token.isFinish
  split <;> simp_all

theorem isFinish_of_ne {t : Token} (h : t.kind ≠ .finish) : t.isFinish = false := by
  cases hf : t.isFinish with
  | false => rfl
  | true => exact absurd (isFinish_iff.1 hf) h

/-- A token that denotes something is no mark of structure. -/
theorem Denotes.kind_ne {t : Token} {e : Datum} (h : Denotes t e) :
    t.kind ≠ .leftBracket ∧ t.kind ≠ .rightBracket ∧ t.kind ≠ .quote ∧ t.kind ≠ .finish := by
  cases h with
  | number h | boolean h | string h | symbol h => simp [h]

mutual

/-- A tree holds no end mark. -/
theorem Tree.isFinish_of_mem : ∀ (T : Tree), ∀ t ∈ T.tokens, t.isFinish = false
  | .atom t e h, u, hu => by
    rw [List.mem_singleton.1 hu]
    exact isFinish_of_ne h.kind_ne.2.2.2
  | .quote t h inner, u, hu => by
    rcases List.mem_cons.1 hu with rfl | hu
    · exact isFinish_of_ne (by simp [h])
    · exact Tree.isFinish_of_mem inner u hu
  | .list opening ho items closing hc, u, hu => by
    rcases List.mem_cons.1 hu with rfl | hu
    · exact isFinish_of_ne (by simp [ho])
    · rcases List.mem_append.1 hu with hu | hu
      · exact Forest.isFinish_of_mem items u hu
      · rw [List.mem_singleton.1 hu]
        exact isFinish_of_ne (by simp [hc])

/-- No more does a forest. -/
theorem Forest.isFinish_of_mem : ∀ (F : Forest), ∀ t ∈ F.tokens, t.isFinish = false
  | .nil, _, hu => by cases hu
  | .cons first rest, u, hu => by
    rcases List.mem_append.1 hu with hu | hu
    · exact Tree.isFinish_of_mem first u hu
    · exact Forest.isFinish_of_mem rest u hu

end

/-- The tokens of a forest are all that stands before an end mark behind them. -/
theorem Forest.body_append (F : Forest) {finish : Token} (hf : finish.isFinish = true)
    (behind : List Token) : body (F.tokens ++ finish :: behind) = F.tokens := by
  have hF : ∀ t ∈ F.tokens, (!t.isFinish) = true := by
    intro t ht
    rw [F.isFinish_of_mem t ht]
    rfl
  rw [body, List.takeWhile_append_of_pos hF, List.takeWhile_cons_of_neg (by simp [hf]),
    List.append_nil]

/-! ## 4. The grammar is unambiguous -/

theorem Denotes.unique {t : Token} {e e' : Datum} (h : Denotes t e) (h' : Denotes t e') :
    e = e' := by
  cases h with
  | number h | boolean h | string h | symbol h =>
    cases h' with
    | number h' | boolean h' | string h' | symbol h' => simp_all

/-- What may stand behind a sequence of expressions: the end, or a closing bracket. -/
def Stops (ts : List Token) : Prop := ∀ t ∈ ts.head?, t.kind = .rightBracket

theorem stops_nil : Stops [] := by
  intro t h
  cases h

theorem stops_cons {t : Token} (h : t.kind = .rightBracket) (ts : List Token) : Stops (t :: ts) := by
  intro u hu
  cases hu
  exact h

/-- A tree begins with a token that is no closing bracket. -/
theorem Tree.not_stops (T : Tree) (ts : List Token) : ¬Stops (T.tokens ++ ts) := by
  intro h
  cases T with
  | atom t e hd => exact hd.kind_ne.2.1 (h t rfl)
  | quote t hk inner => exact absurd (hk.symm.trans (h t rfl)) nofun
  | list opening ho items closing hc => exact absurd (ho.symm.trans (h opening rfl)) nofun

mutual

/-- Of two trees at the beginning of the same tokens none is longer than the other. -/
theorem Tree.append_inj : ∀ (T U : Tree) {ts us : List Token},
    T.tokens ++ ts = U.tokens ++ us → T = U ∧ ts = us
  | .atom t e h, .atom u e' h', _, _, hw => by
    obtain ⟨rfl, rfl⟩ := List.cons.inj hw
    obtain rfl := h.unique h'
    exact ⟨rfl, rfl⟩
  | .quote t h inner, .quote u h' inner', _, _, hw => by
    obtain ⟨rfl, hi⟩ := List.cons.inj hw
    obtain ⟨rfl, rfl⟩ := Tree.append_inj inner inner' hi
    exact ⟨rfl, rfl⟩
  | .list opening ho items closing hc, .list opening' ho' items' closing' hc', ts, us, hw => by
    obtain ⟨rfl, hi⟩ := List.cons.inj hw
    have hi : items.tokens ++ closing :: ts = items'.tokens ++ closing' :: us := by simpa using hi
    -- the closing brackets end the items on both sides
    obtain ⟨rfl, hr⟩ := Forest.append_inj items items' (stops_cons hc ts) (stops_cons hc' us) hi
    obtain ⟨rfl, rfl⟩ := List.cons.inj hr
    exact ⟨rfl, rfl⟩
  | .atom t e h, .quote u h' _, _, _, hw => by
    obtain ⟨rfl, -⟩ := List.cons.inj hw
    exact absurd h' h.kind_ne.2.2.1
  | .atom t e h, .list u h' _ _ _, _, _, hw => by
    obtain ⟨rfl, -⟩ := List.cons.inj hw
    exact absurd h' h.kind_ne.1
  | .quote t h _, .atom u e h', _, _, hw => by
    obtain ⟨rfl, -⟩ := List.cons.inj hw
    exact absurd h h'.kind_ne.2.2.1
  | .list t h _ _ _, .atom u e h', _, _, hw => by
    obtain ⟨rfl, -⟩ := List.cons.inj hw
    exact absurd h h'.kind_ne.1
  | .quote t h _, .list u h' _ _ _, _, _, hw => by
    obtain ⟨rfl, -⟩ := List.cons.inj hw
    exact absurd (h.symm.trans h') nofun
  | .list t h _ _ _, .quote u h' _, _, _, hw => by
    obtain ⟨rfl, -⟩ := List.cons.inj hw
    exact absurd (h.symm.trans h') nofun

/-- The same for two forests in front of something that ends them. -/
theorem Forest.append_inj : ∀ (F G : Forest) {ts us : List Token}, Stops ts → Stops us →
    F.tokens ++ ts = G.tokens ++ us → F = G ∧ ts = us
  | .nil, .nil, _, _, _, _, hw => ⟨rfl, hw⟩
  | .cons T F, .cons U G, _, _, ht, hu, hw => by
    rw [Forest.tokens, Forest.tokens, List.append_assoc, List.append_assoc] at hw
    obtain ⟨rfl, hr⟩ := Tree.append_inj T U hw
    obtain ⟨rfl, rfl⟩ := Forest.append_inj F G ht hu hr
    exact ⟨rfl, rfl⟩
  | .nil, .cons U G, _, _, ht, _, hw => by
    rw [Forest.tokens, Forest.tokens, List.append_assoc, List.nil_append] at hw
    exact absurd (hw ▸ ht) (U.not_stops _)
  | .cons T F, .nil, _, _, _, hu, hw => by
    rw [Forest.tokens, Forest.tokens, List.append_assoc, List.nil_append] at hw
    exact absurd (hw ▸ hu) (T.not_stops _)

end

/-- **The tokens determine the derivation.** -/
theorem Forest.eq_of_tokens_eq {F G : Forest} (h : F.tokens = G.tokens) : F = G := by
  refine (Forest.append_inj F G stops_nil stops_nil ?_).1
  rw [List.append_nil, List.append_nil, h]

end HostedLisp.Program

import Treewalk.Proofs.Token.Places

/-!
The items of a source, stretch by stretch. What is shown of every source is shown of the empty one, and of bytes that
are read as one stretch with the rest of a source behind them. So the lexer is seen to have a result on every source.
-/

namespace Treewalk

namespace Lexer

/-- What a reading gives to report, at the line on which its bytes end: a token, an error or nothing. -/
def Reading.found (r : Reading) (bytes : List UInt8) (line offset : Nat) : List (Except LexError Token) :=
  match r with
  | .skipped => []
  | .token kind => [.ok ⟨kind, Text.decodeLossy bytes, line, offset⟩]
  | .fault why => [.error ⟨line, why⟩]

theorem Reading.found_cases (r : Reading) (bytes : List UInt8) (line offset : Nat) :
    r.found bytes line offset = [] ∨ ∃ item, r.found bytes line offset = [item] := by
  cases r with
  | skipped => exact .inl rfl
  | token kind => exact .inr ⟨_, rfl⟩
  | fault why => exact .inr ⟨_, rfl⟩

/-- A reading and the number of bytes that belong to it after the first one. -/
structure Stretch where
  reading : Reading
  more : Nat

/-- What the lexer reads from the front of some bytes. -/
def stretch (first : UInt8) (rest : List UInt8) : Stretch :=
  match (ofSource (first :: rest)).readLexeme with
  | some (some error, s) => ⟨.fault error.fault, s.current - 1⟩
  | some (none, s) => ⟨s.pending.elim .skipped .token, s.current - 1⟩
  | none => ⟨.skipped, 0⟩

theorem Reads.stretch {first : UInt8} {tail after : List UInt8} {r : Reading} (h : Reads (first :: tail) r after) :
    stretch first (tail ++ after) = ⟨r, tail.length⟩ := by
  have hread := h.readLexeme (stands_ofSource (first :: tail ++ after)) rfl
  have hcurrent : ((ofSource (first :: tail ++ after)).past (first :: tail)).current - 1 = tail.length := by
    simp [past, ofSource]
  rw [Lexer.stretch, ← List.cons_append, hread]
  cases r with
  | skipped | token | fault => exact congrArg _ hcurrent

/-- The items of a source from a place on. The line of an item is the one on which its stretch ends. -/
def items (offset line : Nat) : List UInt8 → List (Except LexError Token)
  | [] => [.ok ⟨.finish, "", line, offset⟩]
  | first :: rest =>
    let s := stretch first rest
    let bytes := first :: rest.take s.more
    let line := line + bytes.count newline
    s.reading.found bytes line offset ++ items (offset + 1 + s.more) line (rest.drop s.more)
termination_by bytes => bytes.length
decreasing_by
  simp only [List.length_cons, List.length_drop]
  omega

theorem Reads.ne_nil {bytes after : List UInt8} {r : Reading} (h : Reads bytes r after) : bytes ≠ [] := by
  cases h with
  | @mark s after _ _ =>
    rw [encode_spelling]
    cases s <;> exact nofun
  | _ => exact nofun

/-- The items of a source that begins with the bytes of a stretch. -/
theorem Reads.items {bytes after : List UInt8} {r : Reading} (h : Reads bytes r after) (offset line : Nat) :
    items offset line (bytes ++ after) =
      r.found bytes (line + bytes.count newline) offset
        ++ items (offset + bytes.length) (line + bytes.count newline) after := by
  obtain ⟨first, tail, rfl⟩ := List.exists_cons_of_ne_nil h.ne_nil
  have hoffset : offset + (first :: tail).length = offset + 1 + tail.length := by
    rw [List.length_cons]
    omega
  rw [hoffset, List.cons_append, Lexer.items, h.stretch]
  dsimp only
  rw [List.take_left, List.drop_left]

/-- A source is empty, or begins with the bytes of a stretch. -/
@[elab_as_elim]
theorem source_induction {motive : List UInt8 → Prop} (nil : motive [])
    (reads : ∀ bytes r after, Reads bytes r after → motive after → motive (bytes ++ after)) (source : List UInt8) :
    motive source := by
  match source with
  | [] => exact nil
  | first :: rest =>
    obtain ⟨bytes, r, after, hsource, hreads⟩ := begins_cons first rest
    have hlength := congrArg List.length hsource
    have hpos := List.length_pos_iff.mpr hreads.ne_nil
    rw [List.length_append] at hlength
    rw [hsource]
    exact reads _ _ after hreads (source_induction nil reads after)
termination_by source.length
decreasing_by
  rw [hsource, List.length_append]
  omega

theorem ascii_of_beginsWord {b : UInt8} (h : beginsWord b = true) : b < 0x80 := by
  rcases beginsWord_iff.mp h with h | rfl
  · exact ascii_of_isLetter h
  · decide

theorem Continues.ascii {path path' : Bool} {bytes : List UInt8} (h : Continues path bytes path') :
    ∀ b ∈ bytes, b < 0x80 := by
  induction h with
  | done => exact nofun
  | letter hletter _ ih => exact List.forall_mem_cons.mpr ⟨ascii_of_isLetter hletter, ih⟩
  | colons ha hb _ ih =>
    rw [eq_toUInt8 ha, eq_toUInt8 hb]
    exact List.forall_mem_cons.mpr ⟨by decide, List.forall_mem_cons.mpr ⟨by decide, ih⟩⟩
  | brace hb _ ih =>
    refine List.forall_mem_cons.mpr ⟨?_, ih⟩
    rcases hb with hb | hb <;> rw [eq_toUInt8 hb] <;> decide

theorem encode_decodeLossy_word {first : UInt8} {tail : List UInt8} {path : Bool} (hfirst : beginsWord first = true)
    (htail : Continues false tail path) : Text.encode (Text.decodeLossy (first :: tail)) = first :: tail :=
  Text.encode_decodeLossy_of_ascii (List.forall_mem_cons.mpr ⟨ascii_of_beginsWord hfirst, htail.ascii⟩)

theorem encode_decodeLossy_numeral {first : UInt8} {whole places : List UInt8} (hfirst : isDigit first = true)
    (hwhole : ∀ b ∈ whole, isDigit b = true) (hplaces : ∀ b ∈ places, isDigit b = true) :
    Text.encode (Text.decodeLossy (first :: numeral whole places)) = first :: numeral whole places := by
  refine Text.encode_decodeLossy_of_ascii (List.forall_mem_cons.mpr ⟨ascii_of_isDigit hfirst, fun b hb => ?_⟩)
  rcases List.mem_append.mp hb with hb | hb
  · exact ascii_of_isDigit (hwhole b hb)
  · split at hb
    · cases hb
    · rcases List.mem_cons.mp hb with rfl | hb
      · decide
      · exact ascii_of_isDigit (hplaces b hb)

theorem Reads.ne_finish {bytes after : List UInt8} {kind : Token.Kind} (h : Reads bytes (.token kind) after) :
    kind ≠ .finish := by
  generalize hr : Reading.token kind = r at h
  cases h with
  | mark | string | number =>
    cases hr
    exact nofun
  | word =>
    cases hr
    unfold wordKind
    split
    · exact nofun
    · split <;> exact nofun
  | space | comment | unterminated | glued | unexpected => cases hr

theorem ok_mem_found {t : Token} {r : Reading} {bytes : List UInt8} {line offset : Nat}
    (h : .ok t ∈ r.found bytes line offset) : ∃ kind, r = .token kind ∧ t = ⟨kind, Text.decodeLossy bytes, line, offset⟩ := by
  cases r with
  | skipped => cases h
  | token kind =>
    cases List.mem_singleton.mp h
    exact ⟨kind, rfl, rfl⟩
  | fault why => cases List.mem_singleton.mp h

/-- A token is the end, or it is read from bytes that have its lexeme. -/
theorem exists_reads (offset line : Nat) (source : List UInt8) : ∀ t, .ok t ∈ items offset line source →
    t.kind = .finish ∨ ∃ bytes after, Reads bytes (.token t.kind) after ∧ t.lexeme = Text.decodeLossy bytes := by
  induction source using source_induction generalizing offset line with
  | nil =>
    intro t ht
    rw [items] at ht
    cases List.mem_singleton.mp ht
    exact .inl rfl
  | reads bytes r after hreads ih =>
    intro t ht
    rw [hreads.items] at ht
    rcases List.mem_append.mp ht with ht | ht
    · obtain ⟨kind, rfl, rfl⟩ := ok_mem_found ht
      exact .inr ⟨bytes, after, hreads, rfl⟩
    · exact ih _ _ t ht

/-- The last item is the end, and there is no other one. -/
theorem items_eq_concat (offset line : Nat) (source : List UInt8) : ∃ front,
    items offset line source
        = front ++ [.ok ⟨.finish, "", line + source.count newline, offset + source.length⟩] ∧
      ∀ t, .ok t ∈ front → t.isFinish = false := by
  induction source using source_induction generalizing offset line with
  | nil => exact ⟨[], by rw [items]; rfl, nofun⟩
  | reads bytes r after hreads ih =>
    obtain ⟨front, heq, hfront⟩ := ih (offset + bytes.length) (line + bytes.count newline)
    refine ⟨r.found bytes (line + bytes.count newline) offset ++ front, ?_, fun t ht => ?_⟩
    · rw [hreads.items, heq, List.count_append, List.length_append, List.append_assoc, Nat.add_assoc, Nat.add_assoc]
    · rcases List.mem_append.mp ht with ht | ht
      · obtain ⟨kind, rfl, rfl⟩ := ok_mem_found ht
        exact beq_eq_false_iff_ne.mpr hreads.ne_finish
      · exact hfront t ht

/-! ### The lexer -/

/-- The lexer at the start of a lexeme. -/
def begun (s : Lexer) : Lexer :=
  { s with start := s.current, pending := none }

section Items
variable {s : Lexer} {front bytes after : List UInt8}

theorem Stands.begun (h : s.Stands front after) : s.begun.Stands front after :=
  ⟨h.source, h.current⟩

/-- Behind a stretch the lexer gives what there is to report, or goes on. -/
theorem Reads.next {r : Reading} (hreads : Reads bytes r after) (h : s.Stands front (bytes ++ after)) :
    s.next =
      match r.found bytes (s.line + bytes.count newline) s.current with
      | [] => (s.begun.past bytes).next
      | item :: _ => some (some item, s.begun.past bytes) := by
  have hlength := List.length_pos_iff.mpr hreads.ne_nil
  have hsize := h.size
  rw [List.length_append] at hsize
  have hread : Lexer.readLexeme { s with start := s.current, pending := none } = some (r.outcome (s.begun.past bytes)) :=
    hreads.readLexeme h.begun h.current
  have hlexeme : (s.begun.past bytes).lexeme = some (Text.decodeLossy bytes) := h.begun.past.lexeme h.current
  conv => lhs; rw [Lexer.next, if_pos (by omega), if_neg (by simp only [beq_iff_eq]; omega), hread]
  cases r with
  | skipped =>
    have hless : (s.begun.past bytes).remaining < s.remaining := by
      simp only [remaining, begun, past]
      omega
    exact if_pos hless
  | token kind =>
    have hpending : ({ s.begun.past bytes with pending := some kind } : Lexer).lexeme = some (Text.decodeLossy bytes) := hlexeme
    simp only [Reading.outcome, give, Option.bind_eq_bind, Option.bind_some, hpending]
    rfl
  | fault why => rfl

theorem Stands.next_nil (h : s.Stands front []) :
    s.next = some (some (.ok ⟨.finish, "", s.line, s.current⟩), { s with current := s.current + 1 }) := by
  have hsize : s.source.size = s.current := h.size
  rw [Lexer.next, hsize, if_pos (Nat.le_refl _), if_pos (beq_self_eq_true _)]
  rfl

/-- Behind the end there is nothing. -/
theorem next_of_lt (h : s.source.size < s.current) : s.next = some (none, s) := by
  rw [Lexer.next, if_neg (Nat.not_le.mpr h)]
  rfl

theorem collect_of_next {item : Except LexError Token} {s' : Lexer} {items : List (Except LexError Token)}
    (h : s.next = some (some item, s')) (hless : s'.source.size + 1 - s'.current < s.source.size + 1 - s.current)
    (hitems : s'.collect = some items) : s.collect = some (item :: items) := by
  rw [collect, h]
  simp only [Option.bind_eq_bind, Option.bind_some, hitems, if_pos hless]
  rfl

/-- What is passed over gives nothing. -/
theorem collect_of_next_eq {t : Lexer} {items : List (Except LexError Token)} (h : s.next = t.next)
    (hle : t.source.size + 1 - t.current ≤ s.source.size + 1 - s.current) (hitems : t.collect = some items) :
    s.collect = some items := by
  rw [collect] at hitems ⊢
  rw [h]
  rcases hnext : t.next with _ | ⟨_ | item, s'⟩ <;> rw [hnext] at hitems
  · cases hitems
  · exact hitems
  · simp only [Option.bind_eq_bind, Option.bind_some] at hitems ⊢
    split at hitems
    · next hless => rwa [if_pos (Nat.lt_of_lt_of_le hless hle)]
    · cases hitems

/-- From every place the lexer comes to the end, and gives the items that are left. -/
theorem Stands.collect (h : s.Stands front after) : s.collect = some (items s.current s.line after) := by
  induction after using source_induction generalizing s front with
  | nil =>
    have hsize : s.source.size = s.current := h.size
    have hbehind : ({ s with current := s.current + 1 } : Lexer).collect = some [] := by
      rw [Lexer.collect, next_of_lt (by rw [hsize]; exact Nat.lt_succ_self _)]
      rfl
    rw [collect_of_next h.next_nil (by simp only [hsize]; omega) hbehind, items]
  | reads bytes r after hreads ih =>
    have hlater : (s.begun.past bytes).collect
        = some (items (s.current + bytes.length) (s.line + bytes.count newline) after) := ih h.begun.past
    have hnext := hreads.next h
    have hlength := List.length_pos_iff.mpr hreads.ne_nil
    have hless : s.source.size + 1 - (s.current + bytes.length) < s.source.size + 1 - s.current := by
      have hsize := h.size
      rw [List.length_append] at hsize
      omega
    rw [hreads.items]
    rcases r.found_cases bytes (s.line + bytes.count newline) s.current with hfound | ⟨item, hfound⟩ <;>
      rw [hfound] at hnext ⊢
    · exact collect_of_next_eq hnext (Nat.le_of_lt hless) hlater
    · exact collect_of_next hnext hless hlater

end Items

end Lexer

theorem Token.good_append (xs ys : List (Except LexError Token)) :
    Token.good (xs ++ ys) = Token.good xs ++ Token.good ys :=
  List.filterMap_append ..

theorem LexError.all_append (xs ys : List (Except LexError Token)) :
    LexError.all (xs ++ ys) = LexError.all xs ++ LexError.all ys :=
  List.filterMap_append ..

theorem Token.mem_good {t : Token} {items : List (Except LexError Token)} :
    t ∈ Token.good items ↔ .ok t ∈ items := by
  unfold Token.good
  rw [List.mem_filterMap]
  constructor
  · rintro ⟨x, hx, heq⟩
    cases x with
    | ok u =>
      cases heq
      exact hx
    | error e => cases heq
  · exact fun h => ⟨_, h, rfl⟩

theorem LexError.mem_all {e : LexError} {items : List (Except LexError Token)} :
    e ∈ LexError.all items ↔ .error e ∈ items := by
  unfold LexError.all
  rw [List.mem_filterMap]
  constructor
  · rintro ⟨x, hx, heq⟩
    cases x with
    | ok t => cases heq
    | error f =>
      cases heq
      exact hx
  · exact fun h => ⟨_, h, rfl⟩

/-- The lexer has a result on every source: the items of its stretches. -/
theorem Lexer.collect_ofSource (source : List UInt8) : (Lexer.ofSource source).collect = some (Lexer.items 0 1 source) :=
  (Lexer.stands_ofSource source).collect

theorem Token.scan_eq_items (source : List UInt8) : Token.scan source = Lexer.items 0 1 source := by
  rw [Token.scan, Lexer.collect_ofSource]
  rfl

theorem Token.good_dropLast_scan (source : List UInt8) :
    Token.good (Token.scan source).dropLast = (Token.good (Token.scan source)).takeWhile (!·.isFinish) := by
  obtain ⟨front, heq, hfront⟩ := Lexer.items_eq_concat 0 1 source
  have hgood : ∀ t ∈ Token.good front, (!t.isFinish) = true := fun t ht => by
    rw [hfront t (Token.mem_good.mp ht)]
    rfl
  have hend (t : Token) : Token.good [.ok t] = [t] := rfl
  rw [Token.scan_eq_items, heq, List.dropLast_concat, Token.good_append, List.takeWhile_append_of_pos hgood, hend,
    List.takeWhile_cons_of_neg (by simp [Token.isFinish]), List.append_nil]

/-- A source has an end. -/
theorem Token.exists_finish (source : List UInt8) : ∃ t ∈ Token.good (Token.scan source), t.isFinish := by
  obtain ⟨front, heq, -⟩ := Lexer.items_eq_concat 0 1 source
  refine ⟨⟨.finish, "", 1 + source.count Lexer.newline, 0 + source.length⟩, Token.mem_good.mpr ?_, rfl⟩
  rw [Token.scan_eq_items, heq]
  exact List.mem_append_right _ (List.mem_singleton_self _)

end Treewalk

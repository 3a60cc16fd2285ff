import ArrayMachine.Proofs.Reader.Ring

/-!
# Scanning takes prefixes of the row

What skipping blanks and taking a token do to the row of bytes ahead (`Reader.onward`), whatever the
script does: reads that fail and empty chunks included.

* `skipped_skipBlanks`: skipping blanks drops a run of blanks from the front of the row, for good.
* `taken_takeToken`: taking a token leaves the row as it is, and moves the cursor over a run of bytes
  that are not blank. The ring overflows only if that run goes on beyond a full ring.
* On a steady script (`Source.Steady`: no read fails, and no chunk is empty) both stop only where
  they should: at a byte of the other sort, or at the end of all bytes.
-/

namespace ArrayMachine

/-! ## Steady scripts -/

namespace Source

/-- No read of the script fails, and every chunk has a byte. -/
def Steady (source : Source) : Prop :=
  ∀ chunk ∈ source, chunk ≠ .failure ∧ chunk ≠ .bytes []

instance (source : Source) : Decidable source.Steady :=
  inferInstanceAs (Decidable (∀ chunk ∈ source, chunk ≠ .failure ∧ chunk ≠ .bytes []))

theorem Steady.tail {chunk : Chunk} {rest : Source} (h : Steady (chunk :: rest)) : Steady rest :=
  fun c hc => h c (List.mem_cons_of_mem chunk hc)

theorem Steady.pushBack {bytes : List UInt8} {rest : Source} (h : Steady rest) :
    Steady (pushBack bytes rest) := by
  unfold Source.pushBack
  split
  · exact h
  · rename_i hb
    intro chunk hc
    rcases List.mem_cons.mp hc with rfl | hc
    · exact ⟨by simp, by simpa using hb⟩
    · exact h chunk hc

/-- A steady script stays steady, and comes to its end only with its last byte. -/
theorem Steady.read {room : Nat} {source rest : Source} {d : Delivery} (h : Steady source)
    (hr : read room source = (d, rest)) :
    Steady rest ∧ d ≠ .failure ∧ (d = .endOfInput → rest.contents = []) := by
  fun_induction Source.read room source with
  | case1 =>
    obtain ⟨rfl, rfl⟩ := Prod.mk.inj hr
    exact ⟨h, by simp, fun _ => rfl⟩
  | case2 => exact absurd rfl (h _ List.mem_cons_self).2
  | case3 first more tail =>
    obtain ⟨rfl, rfl⟩ := Prod.mk.inj hr
    exact ⟨h.tail.pushBack, by simp, by simp⟩
  | case4 tail ih => exact ih h.tail hr
  | case5 => exact absurd rfl (h _ List.mem_cons_self).1

/-- The end is met only behind all bytes. -/
theorem Steady.contents_eq_nil {room : Nat} {source rest : Source} (h : Steady source)
    (hr : Source.read room source = (.endOfInput, rest)) : source.contents = [] := by
  rw [contents_of_read hr, (h.read hr).2.2 rfl]
  rfl

end Source

namespace Reader

variable {r s : Reader}

/-- The script is steady, and its end is remembered only if no byte is left. -/
structure Steady (r : Reader) : Prop where
  source : r.source.Steady
  ended : r.exhausted = true → r.source.contents = []

/-- A read of the script leaves a steady reader, if the reader remembers no end but one just met. -/
theorem Steady.readOn (h : r.Steady) {room : Nat} {source : Source} {d : Delivery}
    (hread : r.source.read room = (d, source)) (hsource : s.source = source)
    (hexhausted : s.exhausted = true → d = .endOfInput) : s.Steady where
  source := hsource ▸ (h.source.read hread).1
  ended he := hsource ▸ (h.source.read hread).2.2 (hexhausted he)

/-- A steady reader looks ahead without failing, and meets the end only behind all bytes. -/
theorem Steady.fill (h : r.Steady) (hstop : r.cursor = r.stop) {p : Peek} (hp : r.fill = (p, s)) :
    s.Steady ∧ p ≠ .failed ∧ (p = .endOfInput → r.onward r.cursor = []) := by
  rw [hstop, onward_stop]
  unfold Reader.fill at hp
  split at hp
  · obtain ⟨rfl, rfl⟩ := Prod.mk.inj hp
    exact ⟨h, by simp, by simp⟩
  · split at hp
    · obtain ⟨rfl, rfl⟩ := Prod.mk.inj hp
      exact ⟨⟨h.source, h.ended⟩, by simp, by simp⟩
    · rename_i hstash
      rw [hstash]
      split at hp
      · rename_i hend
        obtain ⟨rfl, rfl⟩ := Prod.mk.inj hp
        exact ⟨h, by simp, fun _ => h.ended hend⟩
      · rename_i hend
        split at hp <;> rename_i hread <;> obtain ⟨rfl, rfl⟩ := Prod.mk.inj hp
        · exact ⟨h.readOn hread rfl fun he => absurd he hend, by simp, by simp⟩
        · exact ⟨h.readOn hread rfl fun _ => rfl, by simp, fun _ => h.source.contents_eq_nil hread⟩
        · exact absurd rfl (h.source.read hread).2.1

theorem Steady.peek (h : r.Steady) (hr : r.Sound) {p : Peek} (hp : r.peek = (p, s)) :
    s.Steady ∧ p ≠ .failed ∧ (p = .endOfInput → r.onward r.cursor = []) := by
  unfold Reader.peek at hp
  split at hp
  · obtain ⟨rfl, rfl⟩ := Prod.mk.inj hp
    exact ⟨h, by simp, by simp⟩
  · rename_i hge
    have := hr.cursor_le
    exact h.fill (by omega) hp

theorem Steady.peekBeyond (h : r.Steady) {p : Peek} (hp : r.peekBeyond = (p, s)) :
    s.Steady ∧ p ≠ .failed ∧ (p = .endOfInput → r.onward r.stop = []) := by
  rw [onward_stop]
  unfold Reader.peekBeyond at hp
  split at hp
  · obtain ⟨rfl, rfl⟩ := Prod.mk.inj hp
    exact ⟨h, by simp, by simp⟩
  · rename_i hstash
    rw [hstash]
    split at hp
    · rename_i hend
      obtain ⟨rfl, rfl⟩ := Prod.mk.inj hp
      exact ⟨h, by simp, fun _ => h.ended hend⟩
    · rename_i hend
      split at hp <;> rename_i hread <;> obtain ⟨rfl, rfl⟩ := Prod.mk.inj hp
      · exact ⟨h.readOn hread rfl fun he => absurd he hend, by simp, by simp⟩
      · exact ⟨h.readOn hread rfl fun _ => rfl, by simp, fun _ => h.source.contents_eq_nil hread⟩
      · exact absurd rfl (h.source.read hread).2.1

/-! ## Moving the cursor -/

/-- The cursor steps over a held byte. -/
theorem Sound.advance (h : r.Sound) (hlt : r.cursor < r.stop) : r.advance.Sound :=
  ⟨Nat.le_succ_of_le h.start_le, hlt, h.stop_le, h.capacity_pos⟩

theorem Sound.commit (h : r.Sound) : r.commit.Sound := by
  refine ⟨Nat.le_refl _, h.cursor_le, ?_, h.capacity_pos⟩
  have hstart := h.start_le
  have hstop := h.stop_le
  show r.stop ≤ r.cursor + r.capacity
  omega

theorem Sound.rewind (h : r.Sound) : r.rewind.Sound :=
  ⟨Nat.le_refl _, Nat.le_trans h.start_le h.cursor_le, h.stop_le, h.capacity_pos⟩

/-! ## Blanks -/

/-- `r` has skipped blanks and become `s`, where `o` stands in the way of a token, if anything
does. -/
structure Skipped (r : Reader) (o : Option Scan) (s : Reader) : Prop where
  sound : s.Sound
  cursor_eq : s.cursor = s.start
  capacity_eq : s.capacity = r.capacity
  /-- Only blanks are gone from the row. -/
  dropped : ∃ blanks, (∀ b ∈ blanks, Ascii.isBlank b = true) ∧
    r.onward r.start = blanks ++ s.onward s.start
  ahead : o = none → ∃ byte rest, s.onward s.start = byte :: rest ∧ Ascii.isBlank byte = false
  obstacle : o = none ∨ o = some .endOfInput ∨ o = some .failed
  steady : r.Steady →
    s.Steady ∧ o ≠ some .failed ∧ (o = some .endOfInput → s.onward s.start = [])

/-- Nothing is skipped where nothing blank is seen. -/
theorem Skipped.of_peek (h : r.Sound) (hc : r.cursor = r.start) {p : Peek} {o : Option Scan}
    (hp : r.peek = (p, s)) (hfull : p ≠ .full)
    (hbyte : ∀ byte, p = .byte byte → Ascii.isBlank byte = false ∧ o = none)
    (hend : p = .endOfInput → o = some .endOfInput) (hfail : p = .failed → o = some .failed) :
    Skipped r o s := by
  have hs := extends_peek h hp
  have hrow := hs.onward_start h
  refine ⟨hs.sound, by rw [hs.cursor_eq, hs.start_eq, hc], hs.capacity_eq,
    ⟨[], by simp, hrow.symm⟩, ?_, ?_, ?_⟩
  · intro ho
    cases p with
    | byte byte =>
      refine ⟨byte, s.onward (s.cursor + 1), ?_, (hbyte byte rfl).1⟩
      rw [hrow, ← hc]
      exact onward_of_peek_byte h hp
    | endOfInput => simp [hend rfl] at ho
    | full => exact absurd rfl hfull
    | failed => simp [hfail rfl] at ho
  · cases p with
    | byte byte => exact Or.inl (hbyte byte rfl).2
    | endOfInput => exact Or.inr (Or.inl (hend rfl))
    | full => exact absurd rfl hfull
    | failed => exact Or.inr (Or.inr (hfail rfl))
  · intro hr
    obtain ⟨hsteady, hok, hnil⟩ := hr.peek h hp
    cases p with
    | byte byte => exact ⟨hsteady, by simp [(hbyte byte rfl).2], by simp [(hbyte byte rfl).2]⟩
    | endOfInput =>
      refine ⟨hsteady, by simp [hend rfl], fun _ => ?_⟩
      rw [hrow, ← hc]
      exact hnil rfl
    | full => exact absurd rfl hfull
    | failed => exact absurd rfl hok

/-- **Skipping blanks** drops blanks from the row and nothing else, and stops before a byte that is
not blank, unless the input ends or a read fails. -/
theorem skipped_skipBlanks (h : r.Sound) (hc : r.cursor = r.start) {o : Option Scan}
    (ho : r.skipBlanks = (o, s)) : Skipped r o s := by
  fun_induction skipBlanks r with
  | case1 r byte t hp hb ih =>
    have hs := extends_peek h hp
    obtain ⟨hlt, -⟩ := peek_byte h hp
    have ih := ih (hs.sound.advance hlt).commit rfl ho
    obtain ⟨blanks, hblanks, hdrop⟩ := ih.dropped
    refine ⟨ih.sound, ih.cursor_eq, ih.capacity_eq.trans hs.capacity_eq,
      ⟨byte :: blanks, ?_, ?_⟩, ih.ahead, ih.obstacle, ?_⟩
    · simpa [hb] using hblanks
    · rw [← hc, onward_of_peek_byte h hp]
      exact congrArg (byte :: ·) hdrop
    · intro hr
      obtain ⟨hsource, hended⟩ := (hr.peek h hp).1
      exact ih.steady ⟨hsource, hended⟩
  | case2 r byte t hp hb =>
    obtain ⟨rfl, rfl⟩ := Prod.mk.inj ho
    refine Skipped.of_peek h hc hp (by simp) ?_ (by simp) (by simp)
    intro b hbyte
    cases hbyte
    exact ⟨by simpa using hb, rfl⟩
  | case3 r t hp =>
    obtain ⟨rfl, rfl⟩ := Prod.mk.inj ho
    exact Skipped.of_peek h hc hp (by simp) (by simp) (fun _ => rfl) (by simp)
  | case4 r t hp => exact absurd (congrArg Prod.fst hp) (peek_ne_full h hc)
  | case5 r t hp =>
    obtain ⟨rfl, rfl⟩ := Prod.mk.inj ho
    exact Skipped.of_peek h hc hp (by simp) (by simp) (by simp) (fun _ => rfl)

/-! ## Tokens -/

/-- `r` has looked for the end of a token, found `scan`, and become `s`. -/
structure Taken (r : Reader) (scan : Scan) (s : Reader) : Prop where
  sound : s.Sound
  start_eq : s.start = r.start
  capacity_eq : s.capacity = r.capacity
  /-- Nothing is gone from the row. -/
  onward_eq : s.onward s.start = r.onward r.start
  token : ∀ t, scan = .token t → s.cursor = r.cursor + t.length ∧
    (∀ b ∈ t, Ascii.isBlank b = false) ∧ r.onward r.cursor = t ++ s.onward s.cursor
  overflow : scan = .overflow → ∃ t rest, r.onward r.cursor = t ++ rest ∧
    (∀ b ∈ t, Ascii.isBlank b = false) ∧ r.start + r.capacity < r.cursor + t.length
  found : scan ≠ .endOfInput
  steady : r.Steady → s.Steady ∧ scan ≠ .failed ∧
    ∀ t, scan = .token t → ∀ b, (s.onward s.cursor).head? = some b → Ascii.isBlank b = true

/-- No byte is taken where the token ends or a read fails. -/
theorem Taken.of_extends (h : r.Sound) (hs : Extends r s) {scan : Scan}
    (hscan : scan = .token [] ∨ scan = .failed)
    (hsteady : r.Steady → s.Steady ∧ scan ≠ .failed ∧
      ∀ b, (r.onward r.cursor).head? = some b → Ascii.isBlank b = true) :
    Taken r scan s := by
  have hrow := hs.onward_start h
  have hahead := hs.onward_cursor h
  refine ⟨hs.sound, hs.start_eq, hs.capacity_eq, hrow, ?_, ?_, ?_, ?_⟩
  · rintro t rfl
    obtain rfl : t = [] := by simpa using hscan
    exact ⟨hs.cursor_eq, by simp, hahead.symm⟩
  · rintro rfl
    simp at hscan
  · rintro rfl
    simp at hscan
  · intro hr
    obtain ⟨h1, h2, h3⟩ := hsteady hr
    exact ⟨h1, h2, fun _ _ => hahead ▸ h3⟩

/-- Behind a full ring the token ends, or it is too long. -/
theorem taken_endOfFull (h : r.Sound) (hc : r.cursor = r.stop) (hf : r.stop = r.start + r.capacity)
    {scan : Scan} (ht : r.endOfFull = (scan, s)) : Taken r scan s := by
  unfold endOfFull at ht
  split at ht
  · rename_i byte t hp
    obtain ⟨rfl, rfl⟩ := Prod.mk.inj ht
    have hs := extends_peekBeyond h hp
    obtain ⟨rest, hrow⟩ := onward_of_peekBeyond_byte hp
    rw [← hc] at hrow
    by_cases hb : Ascii.isBlank byte = true
    · rw [if_pos hb]
      refine Taken.of_extends h hs (Or.inl rfl) fun hr => ⟨(hr.peekBeyond hp).1, by simp, ?_⟩
      rw [hrow]
      rintro b ⟨rfl⟩
      exact hb
    · rw [if_neg hb]
      refine ⟨hs.sound, hs.start_eq, hs.capacity_eq, hs.onward_start h, by simp, fun _ => ?_,
        by simp, fun hr => ⟨(hr.peekBeyond hp).1, by simp, by simp⟩⟩
      refine ⟨[byte], rest, hrow, by simpa using hb, ?_⟩
      rw [List.length_singleton]
      omega
  · rename_i t hp
    obtain ⟨rfl, rfl⟩ := Prod.mk.inj ht
    refine Taken.of_extends h (extends_peekBeyond h hp) (Or.inl rfl) fun hr => ?_
    obtain ⟨hsteady, -, hnil⟩ := hr.peekBeyond hp
    exact ⟨hsteady, by simp, by simp [hc, hnil rfl]⟩
  · rename_i t hp
    exact absurd (congrArg Prod.fst hp) peekBeyond_ne_full
  · rename_i t hp
    obtain ⟨rfl, rfl⟩ := Prod.mk.inj ht
    exact Taken.of_extends h (extends_peekBeyond h hp) (Or.inr rfl) fun hr =>
      absurd rfl (hr.peekBeyond hp).2.1

/-- A byte of the token in front of what is found behind it. -/
theorem Taken.cons (h : r.Sound) {byte : UInt8} {t : Reader} {scan : Scan}
    (hp : r.peek = (.byte byte, s)) (hb : Ascii.isBlank byte = false) (ht : Taken s.advance scan t) :
    Taken r (Scan.cons byte scan) t := by
  have hs := extends_peek h hp
  have hrow : r.onward r.cursor = byte :: s.advance.onward s.advance.cursor :=
    onward_of_peek_byte h hp
  have hcursor : s.advance.cursor = r.cursor + 1 := congrArg (· + 1) hs.cursor_eq
  refine ⟨ht.sound, ht.start_eq.trans hs.start_eq, ht.capacity_eq.trans hs.capacity_eq, ?_, ?_, ?_,
    ?_, ?_⟩
  · rw [ht.onward_eq]
    exact hs.onward_start h
  · intro bytes hscan
    cases scan with
    | token more =>
      cases hscan
      obtain ⟨h1, h2, h3⟩ := ht.token more rfl
      refine ⟨by rw [h1, hcursor, List.length_cons]; omega, by simpa [hb] using h2, ?_⟩
      rw [hrow, h3, List.cons_append]
    | endOfInput => simp [Scan.cons] at hscan
    | overflow => simp [Scan.cons] at hscan
    | failed => simp [Scan.cons] at hscan
  · intro hscan
    cases scan with
    | overflow =>
      obtain ⟨more, rest, h1, h2, h3⟩ := ht.overflow rfl
      refine ⟨byte :: more, rest, by rw [hrow, h1, List.cons_append], by simpa [hb] using h2, ?_⟩
      have hstart : s.advance.start = r.start := hs.start_eq
      have hcap : s.advance.capacity = r.capacity := hs.capacity_eq
      rw [hstart, hcap, hcursor] at h3
      rw [List.length_cons]
      omega
    | token more => simp [Scan.cons] at hscan
    | endOfInput => simp [Scan.cons] at hscan
    | failed => simp [Scan.cons] at hscan
  · have := ht.found
    cases scan <;> simp_all [Scan.cons]
  · intro hr
    obtain ⟨hsource, hended⟩ := (hr.peek h hp).1
    obtain ⟨h1, h2, h3⟩ := ht.steady ⟨hsource, hended⟩
    refine ⟨h1, ?_, ?_⟩
    · cases scan <;> simp_all [Scan.cons]
    · intro bytes hscan
      cases scan with
      | token more => exact h3 more rfl
      | endOfInput => simp [Scan.cons] at hscan
      | overflow => simp [Scan.cons] at hscan
      | failed => simp [Scan.cons] at hscan

/-- **Taking a token** leaves the row as it is and moves the cursor over bytes that are not blank.
Only a run of such bytes that is longer than the ring overflows it. -/
theorem taken_takeToken (h : r.Sound) {scan : Scan} (ht : r.takeToken = (scan, s)) :
    Taken r scan s := by
  fun_induction takeToken r generalizing scan s with
  | case1 r byte t hp hb =>
    obtain ⟨rfl, rfl⟩ := Prod.mk.inj ht
    refine Taken.of_extends h (extends_peek h hp) (Or.inl rfl) fun hr =>
      ⟨(hr.peek h hp).1, by simp, ?_⟩
    rw [onward_of_peek_byte h hp]
    rintro b ⟨rfl⟩
    exact hb
  | case2 r byte t hp hb more u hmore ih =>
    obtain ⟨rfl, rfl⟩ := Prod.mk.inj ht
    obtain ⟨hlt, -⟩ := peek_byte h hp
    have hs := extends_peek h hp
    exact Taken.cons h hp (by simpa using hb) (ih (hs.sound.advance hlt) hmore)
  | case3 r t hp =>
    obtain ⟨rfl, rfl⟩ := Prod.mk.inj ht
    refine Taken.of_extends h (extends_peek h hp) (Or.inl rfl) fun hr => ?_
    obtain ⟨hsteady, -, hnil⟩ := hr.peek h hp
    exact ⟨hsteady, by simp, by simp [hnil rfl]⟩
  | case4 r t hp =>
    obtain ⟨rfl, hc, hf⟩ := peek_full h hp
    exact taken_endOfFull h hc hf ht
  | case5 r t hp =>
    obtain ⟨rfl, rfl⟩ := Prod.mk.inj ht
    exact Taken.of_extends h (extends_peek h hp) (Or.inr rfl) fun hr =>
      absurd rfl (hr.peek h hp).2.1

end Reader

end ArrayMachine

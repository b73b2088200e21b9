import Qcc730.Qat.Scan

/-! Which parameters of an AT command are what the host has written.

    The host writes strings in double quotes and puts commas between them; a field can be left empty. The parser
    separates parameters at more characters than commas. Three of them count between quotes as well: a comma right
    behind the opening quote, a semicolon, and a closing brace. Empty fields are skipped with the commas, so that
    the branch that should mark them is never taken. -/

namespace Qcc730.Qat

open Lib

/-! ### Fields -/

/-- A field of the host: a string in quotes, or nothing. -/
def fieldText : Option (List UInt8) → List UInt8
  | none => []
  | some f => quoted f

/-- The fields with commas between them. -/
def fieldsText : List (Option (List UInt8)) → List UInt8
  | [] => []
  | [o] => fieldText o
  | o :: o' :: os => fieldText o ++ comma :: fieldsText (o' :: os)

/-- The bit of `Default_Paramter_Flag` that is set behind a parameter that starts at `start`. -/
def ParamScan.defaultBit (t : ParamScan) (start : ℕ) : ℕ :=
  if t.input.string t.index = comma ∧ start = t.index then 1 <<< t.params.length else 0

/-- `Default_Paramter_Flag` behind the loop over the parameters. -/
def scanDefaults : ℕ → ParamScan → ℕ → ℕ
  | 0, _, flag => flag
  | fuel + 1, s, flag =>
    let c := s.input.string s.index
    if s.result ∧ s.index < s.input.length ∧ s.params.length ≤ maximumNumberOfParameters ∧ c ≠ semicolon then
      if c = space ∨ c = openBrace ∨ c = comma ∨ c = closeBrace then
        scanDefaults fuel { s with index := s.index + 1 } flag
      else
        let s := if c = quote then { s with insideQuotes := true, index := s.index + 1 } else s
        let c := s.input.string s.index
        if s.index < s.input.length ∧ c ≠ semicolon ∧ c ≠ comma then
          let t := scanParam s.input.length s
          if t.abort then flag
          else
            let flag := flag ||| t.defaultBit s.index
            let t := t.finish s.index
            if t.subCommand then flag else scanDefaults fuel t flag
        else scanDefaults fuel s flag
    else flag

/-- `Default_Paramter_Flag` when the command function is called. -/
def defaultParamterFlag (b : Input) (index : ℕ) : ℕ :=
  let s := scanName b.length ⟨b, index + 1, index, index + 1, false, false, false, false, true⟩
  if s.result ∧ s.ar then scanDefaults s.input.length ⟨s.input, s.index, false, [], true, false, false⟩ 0 else 0

variable {b : Input} {p q : ParamScan} {i j : ℕ} {c d : UInt8} {f g t u : List UInt8} {fuel : ℕ}

/-! ### Empty fields -/

theorem escape_index (p : ParamScan) : p.escape.index = p.index := by
  simp only [ParamScan.escape]
  split_ifs
  · rfl
  · split <;> rfl
  · rfl
  · rfl
  · rfl

/-- The index does not stay where a parameter starts, unless the parameter ends there. -/
theorem scanParam_index (fuel : ℕ) (p : ParamScan) :
    scanParam fuel p = p ∨ (scanParam fuel p).abort = true ∨ p.index < (scanParam fuel p).index := by
  induction fuel generalizing p with
  | zero => exact .inl rfl
  | succ fuel ih =>
    simp only [scanParam]
    split
    next =>
      right
      obtain ⟨q, hq⟩ : ∃ q, (if p.input.string p.index = backslash then p.escape else p) = q := ⟨_, rfl⟩
      have hindex : q.index = p.index := by
        rw [← hq]
        split
        · exact escape_index p
        · rfl
      rw [hq]
      split
      next hab => exact .inl hab
      next =>
        rcases ih { q with index := q.index + 1 } with h | h | h
        · right
          rw [h]
          simp only
          omega
        · exact .inl h
        · right
          simp only at h
          omega
    next => exact .inl rfl

/-- No bit is ever set: a comma does not start a parameter. -/
theorem scanDefaults_eq (fuel : ℕ) (p : ParamScan) (flag : ℕ) : scanDefaults fuel p flag = flag := by
  induction fuel generalizing p flag with
  | zero => rfl
  | succ fuel ih =>
    simp only [scanDefaults]
    split
    next =>
      split
      next => exact ih _ _
      next =>
        obtain ⟨q, hq⟩ : ∃ q, (if p.input.string p.index = quote then
            { p with insideQuotes := true, index := p.index + 1 } else p) = q := ⟨_, rfl⟩
        simp only [hq]
        split
        next hc =>
          have hbit : (scanParam q.input.length q).abort = true ∨
              (scanParam q.input.length q).defaultBit q.index = 0 := by
            rcases scanParam_index q.input.length q with h | h | h
            · right
              rw [h, ParamScan.defaultBit, if_neg (fun hb => hc.2.2 hb.1)]
            · exact .inl h
            · right
              rw [ParamScan.defaultBit, if_neg (fun hb => by omega)]
          split
          next => rfl
          next hab =>
            rw [hbit.resolve_left hab, Nat.or_zero]
            split
            · rfl
            · exact ih _ _
        next => exact ih _ _
    next => rfl

theorem defaultParamterFlag_eq (b : Input) (index : ℕ) : defaultParamterFlag b index = 0 := by
  simp only [defaultParamterFlag]
  split
  · exact scanDefaults_eq _ _ _
  · rfl

/-! ### A parameter -/

/-- A character at which a parameter ends, apart from the quote. -/
def Stops (inside : Bool) (c : UInt8) : Prop := c = semicolon ∨ c = closeBrace ∨ (c = comma ∧ inside = false)

/-- The loop to the end of a parameter, in the body of a string: it takes the escapes out of a first part of the
    string and stands in front of the second, which is empty or starts with a character the parameter ends at. -/
theorem scanParam_body (h : Ahead p.input p.index (escaped f ++ quote :: u)) (hr : p.result = true)
    (ha : p.abort = false) (hf : f.length < fuel) :
    ∃ g t b, f = g ++ t ∧ scanParam fuel p = { p with input := b, index := p.index + g.length } ∧
      Ahead b (p.index + g.length) (escaped t ++ quote :: u) ∧ Reads b.string p.index g ∧
      (∀ j < p.index, b.string j = p.input.string j) ∧ (∀ c ∈ g, ¬ Stops p.insideQuotes c) ∧
      ∀ c ∈ t.head?, Stops p.insideQuotes c := by
  induction f generalizing p fuel with
  | nil =>
    obtain ⟨fuel, rfl⟩ : ∃ k, fuel = k + 1 := ⟨fuel - 1, by simp at hf; omega⟩
    have hi : p.input.string p.index = quote := h.reads.head
    refine ⟨[], [], p.input, rfl, ?_, h, trivial, fun _ _ => rfl, by simp, by simp⟩
    simp only [scanParam]
    rw [if_neg (fun hc => hc.2.2.1 hi)]
    rfl
  | cons c f ih =>
    obtain ⟨fuel, rfl⟩ : ∃ k, fuel = k + 1 := ⟨fuel - 1, by simp at hf; omega⟩
    have hf' : f.length < fuel := by rw [List.length_cons] at hf; omega
    have hadd : ∀ n, p.index + 1 + n = p.index + (n + 1) := fun n => by omega
    cases hc : isEscaped c with
    | true =>
      rw [escaped_cons_pos hc] at h
      have hi : p.input.string p.index = backslash := h.reads.head
      have hns : ¬ Stops p.insideQuotes c := by
        rcases isEscaped_iff.mp hc with rfl | rfl
        · rintro (hs | hs | ⟨hs, -⟩) <;> exact absurd hs (by decide)
        · rintro (hs | hs | ⟨hs, -⟩) <;> exact absurd hs (by decide)
      obtain ⟨b, hb, hat, hframe, hahead⟩ := h.escape hc
      obtain ⟨g, t, b', hsplit, hrun, hahead', hreads, hsame, hgo, hstop⟩ :=
        ih (p := { p with input := b, index := p.index + 1 }) hahead hr ha hf'
      simp only [hadd] at hrun hahead' hreads hsame hgo hstop
      refine ⟨c :: g, t, b', by rw [hsplit, List.cons_append], ?_, hahead', ⟨?_, hreads⟩, fun j hj => ?_, ?_, hstop⟩
      · rw [List.length_cons, ← hrun]
        simp only [scanParam]
        rw [if_pos ⟨hr, h.lt, by rw [hi]; decide, .inr (by rw [hi]; decide), by rw [hi]; decide, by rw [hi]; decide⟩,
          if_pos hi, hb]
        simp only [ha, Bool.false_eq_true, if_false]
      · rw [hsame _ (Nat.lt_succ_self _), hat]
      · rw [hsame j (by omega), hframe.below j hj]
      · intro d hd
        rcases List.mem_cons.mp hd with rfl | hd
        · exact hns
        · exact hgo d hd
    | false =>
      have hne : c ≠ backslash ∧ c ≠ quote := by
        constructor <;> rintro rfl <;> exact absurd hc (by decide)
      have hesc := h
      rw [escaped_cons_neg hc] at h
      have hi : p.input.string p.index = c := h.reads.head
      by_cases hs : Stops p.insideQuotes c
      · refine ⟨[], c :: f, p.input, rfl, ?_, hesc, trivial, fun _ _ => rfl, by simp, ?_⟩
        · simp only [scanParam]
          rw [hi, if_neg]
          · rfl
          · rintro ⟨-, -, -, hin, hsemi, hbrace⟩
            rcases hs with rfl | rfl | ⟨rfl, hout⟩
            · exact hsemi rfl
            · exact hbrace rfl
            · simp [hout] at hin
        · intro d hd
          cases Option.mem_some_iff.mp hd
          exact hs
      · obtain ⟨g, t, b, hsplit, hrun, hahead, hreads, hsame, hgo, hstop⟩ :=
          ih (p := { p with index := p.index + 1 }) h.next hr ha hf'
        simp only [hadd] at hrun hahead hreads hsame hgo hstop
        have hin : p.insideQuotes = true ∨ c ≠ comma := by
          by_contra hcon
          push Not at hcon
          exact hs (.inr (.inr ⟨hcon.2, by simpa using hcon.1⟩))
        refine ⟨c :: g, t, b, by rw [hsplit, List.cons_append], ?_, hahead, ⟨?_, hreads⟩,
          fun j hj => hsame j (by omega), ?_, hstop⟩
        · rw [List.length_cons, ← hrun]
          simp only [scanParam]
          rw [hi, if_pos ⟨hr, h.lt, hne.2, hin, fun h0 => hs (.inl h0), fun h0 => hs (.inr (.inl h0))⟩, if_neg hne.1]
          simp only [ha, Bool.false_eq_true, if_false]
        · rw [hsame _ (Nat.lt_succ_self _), hi]
        · intro d hd
          rcases List.mem_cons.mp hd with rfl | hd
          · exact hs
          · exact hgo d hd

/-! ### What is left of the fields -/

variable {fields : List (Option (List UInt8))}

/-- What follows a closing quote. -/
inductive Behind : List UInt8 → Prop
  | last : Behind []
  | more (fields : List (Option (List UInt8))) (h : ∀ f, some f ∈ fields → nul ∉ f) :
      Behind (comma :: fieldsText fields)

/-- What is left where a parameter may start: some fields, or the end of a string and what follows it. -/
inductive Left : List UInt8 → Prop
  | fields (fields : List (Option (List UInt8))) (h : ∀ f, some f ∈ fields → nul ∉ f) : Left (fieldsText fields)
  | body (f r : List UInt8) (hn : nul ∉ f) (hr : Behind r) : Left (escaped f ++ quote :: r)

/-- Fields start with a comma or with a quote. -/
theorem fieldsText_cases (h : ∀ f, some f ∈ fields → nul ∉ f) :
    Behind (fieldsText fields) ∨ ∃ f u, fieldsText fields = quote :: (escaped f ++ quote :: u) ∧ nul ∉ f ∧ Behind u := by
  match fields, h with
  | [], _ => exact .inl .last
  | [none], _ => exact .inl .last
  | [some f], h => exact .inr ⟨f, [], rfl, h f (by simp), .last⟩
  | none :: o :: os, h => exact .inl (.more (o :: os) fun f hf => h f (List.mem_cons_of_mem _ hf))
  | some f :: o :: os, h =>
    refine .inr ⟨f, comma :: fieldsText (o :: os), ?_, h f List.mem_cons_self,
      .more (o :: os) fun f hf => h f (List.mem_cons_of_mem _ hf)⟩
    simp [fieldsText, fieldText, quoted]

theorem Behind.left (h : Behind t) : Left t := by
  cases h with
  | last => exact .fields [] (by simp)
  | more fields h =>
    match fields, h with
    | [], _ => exact .fields [none, none] (by simp)
    | o :: os, h => exact .fields (none :: o :: os) fun f hf => h f (by simpa using hf)

/-- A character that is skipped in front of a parameter. -/
def Skipped (c : UInt8) : Prop := c = space ∨ c = openBrace ∨ c = comma ∨ c = closeBrace

theorem Behind.tail (h : Behind (c :: t)) : c = comma ∧ Left t := by
  cases h with
  | more fields h => exact ⟨rfl, .fields fields h⟩

/-- Skipping a character. -/
theorem Left.skip (h : Left (c :: t)) (hc : Skipped c) : Left t := by
  generalize hx : c :: t = x at h
  cases h with
  | fields fields h =>
    rcases fieldsText_cases h with hb | ⟨f, u, hq, -, -⟩
    · rw [← hx] at hb
      exact hb.tail.2
    · rw [hq] at hx
      rw [(List.cons.inj hx).1] at hc
      rcases hc with hc | hc | hc | hc <;> exact absurd hc (by decide)
  | body f r hn hu =>
    cases f with
    | nil =>
      rw [(List.cons.inj hx).1] at hc
      rcases hc with hc | hc | hc | hc <;> exact absurd hc (by decide)
    | cons d f =>
      cases hd : isEscaped d with
      | true =>
        rw [escaped_cons_pos hd] at hx
        rw [(List.cons.inj hx).1] at hc
        rcases hc with hc | hc | hc | hc <;> exact absurd hc (by decide)
      | false =>
        rw [escaped_cons_neg hd] at hx
        rw [(List.cons.inj hx).2]
        exact .body f r (fun h0 => hn (List.mem_cons_of_mem _ h0)) hu

/-- A quote is an opening one, or the closing one of an empty rest. -/
theorem Left.atQuote (h : Left (quote :: t)) : Behind t ∨ ∃ f u, t = escaped f ++ quote :: u ∧ nul ∉ f ∧ Behind u := by
  generalize hx : quote :: t = x at h
  cases h with
  | fields fields h =>
    rcases fieldsText_cases h with hb | ⟨f, u, hq, hn, hu⟩
    · rw [← hx] at hb
      exact absurd hb.tail.1 (by decide)
    · rw [hq] at hx
      exact .inr ⟨f, u, (List.cons.inj hx).2, hn, hu⟩
  | body f r hn hu =>
    cases f with
    | nil =>
      rw [(List.cons.inj hx).2]
      exact .inl hu
    | cons d f =>
      cases hd : isEscaped d with
      | true =>
        rw [escaped_cons_pos hd] at hx
        exact absurd (List.cons.inj hx).1 (by decide)
      | false =>
        rw [escaped_cons_neg hd] at hx
        rw [← (List.cons.inj hx).1] at hd
        exact absurd hd (by decide)

/-- Any other character is inside a string. -/
theorem Left.atBody (h : Left (c :: t)) (hc : ¬ Skipped c) (hq : c ≠ quote) :
    ∃ f u, c :: t = escaped f ++ quote :: u ∧ nul ∉ f ∧ Behind u := by
  generalize hx : c :: t = x at h
  cases h with
  | fields fields h =>
    rcases fieldsText_cases h with hb | ⟨f, u, hf, -, -⟩
    · rw [← hx] at hb
      exact absurd (.inr (.inr (.inl hb.tail.1))) hc
    · rw [hf] at hx
      exact absurd (List.cons.inj hx).1 hq
  | body f r hn hu => exact ⟨f, r, rfl, hn, hu⟩

/-! ### Strings as they arrive -/

/-- A string that is not cut off: there is no semicolon or closing brace in it, and it does not start with a
    comma. -/
def Whole (f : List UInt8) : Prop := semicolon ∉ f ∧ closeBrace ∉ f ∧ f.head? ≠ some comma

/-- All parameters so far are whole, and nothing was wrong. -/
structure Within (p : ParamScan) : Prop where
  left : ∃ t, Ahead p.input p.index t ∧ Left t
  result : p.result = true
  abort : p.abort = false
  held : ∃ done, Holds p.input.string p.index p.params done ∧ ∀ f ∈ done, nul ∉ f ∧ Whole f

/-- A parameter that starts in the body of a string. -/
theorem within_param (hr : p.result = true) (ha : p.abort = false)
    (hheld : ∃ done, Holds p.input.string p.index p.params done ∧ ∀ f ∈ done, nul ∉ f ∧ Whole f)
    (h : Ahead p.input p.index (escaped f ++ quote :: u)) (hn : nul ∉ f) (hu : Behind u)
    (hc : p.input.string p.index ≠ comma) :
    (scanParam p.input.length p).abort = false ∧ Within ((scanParam p.input.length p).finish p.index) := by
  have hfuel : f.length < p.input.length := by
    have hl := h.length
    rw [List.length_append, length_escaped, List.length_cons] at hl
    omega
  obtain ⟨g, t, b, hsplit, hrun, hahead, hreads, hsame, hgo, hstop⟩ := scanParam_body h hr ha hfuel
  obtain ⟨done, hdone, hwhole⟩ := hheld
  have hng : nul ∉ g := fun h0 => hn (by rw [hsplit]; exact List.mem_append_left _ h0)
  have hg : Whole g := by
    refine ⟨fun hs => hgo _ hs (.inl rfl), fun hs => hgo _ hs (.inr (.inl rfl)), fun hhead => ?_⟩
    cases g with
    | nil => cases hhead
    | cons d g =>
      cases Option.some.inj hhead
      rw [hsplit, List.cons_append, escaped_cons_neg (by decide)] at h
      exact hc h.reads.head
  rw [hrun]
  refine ⟨ha, ?_⟩
  -- where the parameter ends, the string has been read and a zero byte is stored behind it
  have hclose : ∀ {b' : Input} {n : ℕ}, p.index + g.length < n → b'.string (p.index + g.length) = nul →
      (∀ j < p.index + g.length, b'.string j = b.string j) → ∀ v,
      ∃ done, Holds b'.string n (p.params ++ [(p.index, v)]) done ∧ ∀ f ∈ done, nul ∉ f ∧ Whole f := by
    intro b' n hlt hnul hbelow v
    refine ⟨done ++ [g], (hdone.congr (by omega) fun k hk => ?_).snoc ?_ hlt, fun f hf => ?_⟩
    · rw [hbelow k (by omega), hsame k hk]
    · refine Reads.append_iff.mpr ⟨hreads.congr fun k _ hk => hbelow k hk, hnul, trivial⟩
    · rcases List.mem_append.mp hf with hf | hf
      · exact hwhole f hf
      · rw [List.mem_singleton.mp hf]
        exact ⟨hng, hg⟩
  cases t with
  | nil =>
    cases hu with
    | last =>
      obtain ⟨b', sub, hfin, hnul, hframe, hahead'⟩ := finish_end
        (p := { p with input := b, index := p.index + g.length }) hahead p.index
      rw [hfin]
      exact ⟨⟨[], hahead', Behind.last.left⟩, hr, ha, hclose (Nat.lt_succ_self _) hnul hframe.below _⟩
    | more fields hfields =>
      obtain ⟨b', hfin, hnul, hframe, hahead'⟩ := finish_quote
        (p := { p with input := b, index := p.index + g.length }) hahead p.index
      rw [hfin]
      exact ⟨⟨_, hahead', .fields fields hfields⟩, hr, ha, hclose (by simp only; omega) hnul hframe.below _⟩
  | cons d t =>
    have hd := hstop d rfl
    have hesc : isEscaped d = false := by
      rcases hd with rfl | rfl | ⟨rfl, -⟩ <;> decide
    have hq : d ≠ quote := by
      rintro rfl
      exact absurd hesc (by decide)
    rw [escaped_cons_neg hesc] at hahead
    obtain ⟨b', hfin, hnul, hframe, hahead'⟩ := finish_stop
      (p := { p with input := b, index := p.index + g.length }) hahead hq p.index
    rw [hfin]
    refine ⟨⟨_, hahead', .body t _ (fun h0 => hn ?_) hu⟩, hr, ha, hclose (Nat.lt_succ_self _) hnul hframe.below _⟩
    rw [hsplit]
    exact List.mem_append_right _ (List.mem_cons_of_mem _ h0)

/-- Whatever the fields are, all parameters are whole. -/
theorem scanParams_within (fuel : ℕ) (h : Within p) : Within (scanParams fuel p) := by
  induction fuel generalizing p with
  | zero => exact h
  | succ fuel ih =>
    simp only [scanParams]
    split
    next hc =>
      obtain ⟨t, ht, hleft⟩ := h.left
      obtain ⟨done, hdone, hwhole⟩ := h.held
      cases t with
      | nil => exact absurd ht.length (by have := hc.2.1; rw [List.length_nil]; omega)
      | cons c t =>
        have hi : p.input.string p.index = c := ht.reads.head
        rw [hi]
        split
        next hs =>
          exact ih ⟨⟨t, ht.next, hleft.skip hs⟩, h.result, h.abort,
            ⟨done, hdone.congr (Nat.le_succ _) fun _ _ => rfl, hwhole⟩⟩
        next hns =>
          obtain ⟨q, hq⟩ : ∃ q, (if c = quote then { p with insideQuotes := true, index := p.index + 1 } else p) = q :=
            ⟨_, rfl⟩
          have hq' : q.result = true ∧ q.abort = false ∧
              (∃ done, Holds q.input.string q.index q.params done ∧ ∀ f ∈ done, nul ∉ f ∧ Whole f) ∧
              ∃ t, Ahead q.input q.index t ∧ (Behind t ∨ ∃ f u, t = escaped f ++ quote :: u ∧ nul ∉ f ∧ Behind u) := by
            rw [← hq]
            by_cases hcq : c = quote
            · rw [if_pos hcq]
              subst hcq
              exact ⟨h.result, h.abort, ⟨done, hdone.congr (Nat.le_succ _) fun _ _ => rfl, hwhole⟩, t, ht.next,
                hleft.atQuote⟩
            · rw [if_neg hcq]
              exact ⟨h.result, h.abort, ⟨done, hdone, hwhole⟩, c :: t, ht, .inr (hleft.atBody hns hcq)⟩
          obtain ⟨hr, ha, hheld, t', ht', hplace⟩ := hq'
          rw [hq]
          split
          next hstart =>
            have hbody : ∃ f u, t' = escaped f ++ quote :: u ∧ nul ∉ f ∧ Behind u := by
              refine hplace.resolve_left fun hb => ?_
              cases hb with
              | last => exact absurd ht'.length (by have := hstart.1; rw [List.length_nil]; omega)
              | more fields hf => exact hstart.2.2 ht'.reads.head
            obtain ⟨f, u, rfl, hn, hu⟩ := hbody
            obtain ⟨hab, hwithin⟩ := within_param hr ha hheld ht' hn hu hstart.2.2
            split
            next habort => exact absurd (hab.symm.trans habort) Bool.false_ne_true
            next =>
              split
              · exact hwithin
              · exact ih hwithin
          next =>
            refine ih ⟨⟨t', ht', ?_⟩, hr, ha, hheld⟩
            rcases hplace with hb | ⟨f, u, rfl, hn, hu⟩
            · exact hb.left
            · exact .body f u hn hu
    next => exact h

/-! ### Whole strings -/

/-- Between two fields: the strings so far are the parameters so far. -/
structure Fed (p : ParamScan) (t : List UInt8) (done : List (List UInt8)) : Prop where
  ahead : Ahead p.input p.index t
  result : p.result = true
  abort : p.abort = false
  outside : p.insideQuotes = false
  subCommand : p.subCommand = false
  held : Holds p.input.string p.index p.params done

variable {done : List (List UInt8)}

/-- A whole string is read to its closing quote. -/
theorem Fed.round (h : Fed p (quoted f ++ u) done) (hf : Whole f) (hd : done.length ≤ maximumNumberOfParameters)
    (fuel : ℕ) :
    ∃ b : Input, scanParams (fuel + 1) p =
        (let t := ParamScan.finish
          { p with input := b, insideQuotes := true, index := p.index + 1 + f.length } (p.index + 1)
        if t.subCommand then t else scanParams fuel t) ∧
      Ahead b (p.index + 1 + f.length) (quote :: u) ∧ Reads b.string (p.index + 1) f ∧
      ∀ j < p.index + 1, b.string j = p.input.string j := by
  have hahead := h.ahead
  have htext : quoted f ++ u = quote :: (escaped f ++ quote :: u) := by simp [quoted]
  rw [htext] at hahead
  have hq : p.input.string p.index = quote := hahead.reads.head
  obtain ⟨hsemi, hbrace, hcomma⟩ := hf
  have hnext := hahead.next
  have hfuel : f.length < p.input.length := by
    have hl := hnext.length
    rw [List.length_append, length_escaped, List.length_cons] at hl
    omega
  -- the first character of the string, or the closing quote
  have hfirst : p.index + 1 < p.input.length ∧ p.input.string (p.index + 1) ≠ semicolon ∧
      p.input.string (p.index + 1) ≠ comma := by
    cases f with
    | nil =>
      have hc : p.input.string (p.index + 1) = quote := hnext.reads.head
      exact ⟨hnext.lt, by rw [hc]; decide, by rw [hc]; decide⟩
    | cons c f =>
      cases hc : isEscaped c with
      | true =>
        rw [escaped_cons_pos hc] at hnext
        have hc' : p.input.string (p.index + 1) = backslash := hnext.reads.head
        exact ⟨hnext.lt, by rw [hc']; decide, by rw [hc']; decide⟩
      | false =>
        rw [escaped_cons_neg hc] at hnext
        have hc' : p.input.string (p.index + 1) = c := hnext.reads.head
        refine ⟨hnext.lt, ?_, ?_⟩
        · rw [hc']
          exact fun h0 => hsemi (by rw [h0]; exact List.mem_cons_self)
        · rw [hc']
          exact fun h0 => hcomma (by rw [h0]; rfl)
  obtain ⟨g, t, b, hsplit, hrun, hclose, hreads, hsame, -, hstop⟩ := scanParam_body
    (p := { p with insideQuotes := true, index := p.index + 1 }) hnext h.result h.abort hfuel
  have ht : t = [] := by
    cases t with
    | nil => rfl
    | cons d t =>
      have hmem : d ∈ f := by
        rw [hsplit]
        exact List.mem_append_right _ List.mem_cons_self
      rcases hstop d rfl with rfl | rfl | ⟨-, hin⟩
      · exact absurd hmem hsemi
      · exact absurd hmem hbrace
      · exact absurd hin Bool.false_ne_true.symm
  rw [ht, List.append_nil] at hsplit
  rw [ht] at hclose
  subst hsplit
  refine ⟨b, ?_, hclose, hreads, hsame⟩
  have hp : p.params.length ≤ maximumNumberOfParameters := by rw [h.held.length_eq]; exact hd
  simp only [scanParams]
  rw [if_pos ⟨h.result, hahead.lt, hp, by rw [hq]; decide⟩, hq, if_neg (by decide)]
  simp only [if_true]
  rw [if_pos hfirst, hrun]
  simp only [h.abort, Bool.false_eq_true, if_false]

theorem Fed.more (h : Fed p (quoted f ++ comma :: u) done) (hf : Whole f)
    (hd : done.length ≤ maximumNumberOfParameters) (fuel : ℕ) :
    ∃ p', scanParams (fuel + 1) p = scanParams fuel p' ∧ Fed p' u (done ++ [f]) := by
  obtain ⟨b, hround, hclose, hreads, hsame⟩ := h.round hf hd fuel
  obtain ⟨b', hfin, hnul, hframe, hahead⟩ := finish_quote
    (p := { p with input := b, insideQuotes := true, index := p.index + 1 + f.length }) hclose (p.index + 1)
  have hbelow := hframe.below
  have hsub : (p.subCommand || comma == semicolon) = false := by rw [h.subCommand]; rfl
  simp only at hnul hbelow
  rw [hfin] at hround
  simp only [hsub, Bool.false_eq_true, if_false] at hround
  refine ⟨_, hround, ⟨hahead, h.result, h.abort, rfl, rfl, ?_⟩⟩
  refine (h.held.congr (by simp only; omega) fun k hk => ?_).snoc ?_ (by simp only; omega)
  · rw [hbelow k (by omega), hsame k (by omega)]
  · exact Reads.append_iff.mpr ⟨hreads.congr fun k _ hk => hbelow k hk, hnul, trivial⟩

theorem Fed.last (h : Fed p (quoted f) done) (hf : Whole f) (hd : done.length ≤ maximumNumberOfParameters) (fuel : ℕ) :
    (scanParams (fuel + 1) p).result = true ∧ (scanParams (fuel + 1) p).abort = false ∧
      (scanParams (fuel + 1) p).insideQuotes = false ∧
      Ahead (scanParams (fuel + 1) p).input (scanParams (fuel + 1) p).index [] ∧
      Holds (scanParams (fuel + 1) p).input.string (scanParams (fuel + 1) p).index (scanParams (fuel + 1) p).params
        (done ++ [f]) := by
  rw [← List.append_nil (quoted f)] at h
  obtain ⟨b, hround, hclose, hreads, hsame⟩ := h.round hf hd fuel
  obtain ⟨b', sub, hfin, hnul, hframe, hahead⟩ := finish_end
    (p := { p with input := b, insideQuotes := true, index := p.index + 1 + f.length }) hclose (p.index + 1)
  have hbelow := hframe.below
  simp only at hnul hbelow
  rw [hfin] at hround
  -- the line ends here, so that it makes no difference whether a semicolon is left behind it
  have hstop : ∀ t : ParamScan, Ahead t.input t.index [] → scanParams fuel t = t := by
    intro t ht
    have hl := ht.length
    cases fuel with
    | zero => rfl
    | succ fuel =>
      rw [scanParams, if_neg (fun hc => by have := hc.2.1; rw [List.length_nil] at hl; omega)]
  simp only at hround
  rw [hstop _ hahead, ite_self] at hround
  rw [hround]
  refine ⟨h.result, h.abort, rfl, hahead, ?_⟩
  refine (h.held.congr (by simp only; omega) fun k hk => ?_).snoc ?_ (by simp only; omega)
  · rw [hbelow k (by omega), hsame k (by omega)]
  · exact Reads.append_iff.mpr ⟨hreads.congr fun k _ hk => hbelow k hk, hnul, trivial⟩

/-- Fields that are all whole strings become the parameters. -/
theorem Fed.run {fs : List (List UInt8)} (h : Fed p (fieldsText (fs.map some)) done) (hne : fs ≠ [])
    (hf : ∀ f ∈ fs, Whole f) (hd : done.length + fs.length ≤ maximumNumberOfParameters) (hfuel : fs.length ≤ fuel) :
    (scanParams fuel p).result = true ∧ (scanParams fuel p).abort = false ∧
      (scanParams fuel p).insideQuotes = false ∧
      Ahead (scanParams fuel p).input (scanParams fuel p).index [] ∧
      Holds (scanParams fuel p).input.string (scanParams fuel p).index (scanParams fuel p).params (done ++ fs) := by
  induction fs generalizing p done fuel with
  | nil => exact absurd rfl hne
  | cons f fs ih =>
    rw [List.length_cons] at hd hfuel
    obtain ⟨fuel, rfl⟩ : ∃ k, fuel = k + 1 := ⟨fuel - 1, by omega⟩
    cases fs with
    | nil => exact h.last (hf f List.mem_cons_self) (by omega) fuel
    | cons f' fs =>
      obtain ⟨p', hstep, hfed⟩ := Fed.more (u := fieldsText ((f' :: fs).map some)) h (hf f List.mem_cons_self)
        (by omega) fuel
      have hle : (f' :: fs).length ≤ fuel := by omega
      have hrun := ih hfed (List.cons_ne_nil _ _) (fun g hg => hf g (List.mem_cons_of_mem _ hg))
        (by rw [List.length_append, List.length_singleton]; omega) hle
      rw [List.append_assoc, List.singleton_append] at hrun
      rw [hstep]
      exact hrun

/-! ### The command -/

variable {s : NameScan} {name : List UInt8} {groups : List (List Command)} {command : Command} {status : Bool}

/-- The parameters are what stands behind the equals sign. -/
theorem extend_params (h : Ahead b i (plus :: name ++ equals :: c :: t)) (hname : ∀ c ∈ name, isNameChar c = true)
    (hc : c ≠ question) (hfound : findCommandByString groups (plus :: name) = some command) (status : Bool) :
    ∃ (b' : Input) (j : ℕ), Ahead b' j (c :: t) ∧
      processAtExtendCommand groups b i status =
        (let t := scanParams b'.length ⟨b', j, false, [], true, false, false⟩
        if t.abort then ⟨t.input, t.index, false, []⟩
        else if t.result = false ∨ t.insideQuotes then
          ⟨t.input, t.index, false,
            (if t.result = false then [.error] else []) ++ (if t.insideQuotes then [.error] else [])⟩
        else execute command (some .execWParam) t.input t.index t.params status) := by
  have hnext : Ahead b (i + 1) (name ++ equals :: c :: t) := h.next
  have hfuel : name.length < b.length := by
    have hl := h.length
    simp only [List.length_cons, List.length_append] at hl
    omega
  obtain ⟨hreads, hrest⟩ := Reads.append_iff.mp hnext.reads
  have hl := hnext.length
  simp only [List.length_append, List.length_cons] at hl
  have hahead : Ahead (b.set (i + 1 + name.length) nul) (i + 1 + name.length + 1) (c :: t) :=
    ⟨hrest.tail.update (.inl (Nat.lt_succ_self _)), by simp only [Input.set, List.length_cons]; omega, h.fits⟩
  have hat : (b.set (i + 1 + name.length) nul).string (i + 1 + name.length + 1) = c := hahead.reads.head
  refine ⟨_, _, hahead, ?_⟩
  have hscan : scanName b.length ⟨b, i + 1, i, i + 1, false, false, false, false, true⟩ =
      ⟨b.set (i + 1 + name.length) nul, i + 1 + name.length + 1, i, i + 1 + name.length, false, true, false, true,
        true⟩ := by
    rw [scanName_equals (s := ⟨b, i + 1, i, i + 1, false, false, false, false, true⟩) hnext hname hfuel]
    simp only [NameScan.atEquals]
    rw [if_pos hahead.lt, if_neg (by rw [hat]; exact hc)]
  have hcut : (b.set (i + 1 + name.length) nul).cString i = plus :: name := by
    refine cString_of_reads ?_ ?_ ?_
    · refine ⟨?_, Reads.append_iff.mpr ⟨hreads.update (.inr le_rfl), Function.update_self _ _ _, trivial⟩⟩
      simp only [Input.set]
      rw [Function.update_of_ne (by omega)]
      exact h.reads.head
    · simp only [List.mem_cons, not_or]
      exact ⟨by decide, fun h0 => absurd (hname _ h0) (by decide)⟩
    · have hfits := h.fits
      rw [List.length_cons]
      omega
  simp only [processAtExtendCommand]
  rw [hscan]
  simp only [if_true, Bool.false_eq_true, if_false]
  rw [hcut, hfound]
  rfl

/-- Nothing behind the equals sign is an error. -/
theorem extend_nothing (h : Ahead b i (plus :: name ++ [equals])) (hname : ∀ c ∈ name, isNameChar c = true)
    (status : Bool) : (processAtExtendCommand groups b i status).events = [.error] := by
  have hnext : Ahead b (i + 1) (name ++ [equals]) := h.next
  have hfuel : name.length < b.length := by
    have hl := h.length
    simp only [List.length_cons, List.length_append, List.length_nil] at hl
    omega
  have hl := hnext.length
  simp only [List.length_append, List.length_cons, List.length_nil] at hl
  have hresult : (scanName b.length ⟨b, i + 1, i, i + 1, false, false, false, false, true⟩).result = false := by
    rw [scanName_equals (s := ⟨b, i + 1, i, i + 1, false, false, false, false, true⟩) hnext hname hfuel]
    simp only [NameScan.atEquals]
    rw [if_neg (by simp only [Input.set]; omega)]
  simp only [processAtExtendCommand]
  rw [if_neg (by rw [hresult]; exact Bool.false_ne_true)]

/-- The command function is called with the fields: every string is the parameter at its place, and an empty field
    has its place and its bit in `Default_Paramter_Flag`. -/
def Passed (groups : List (List Command)) (b : Input) (i : ℕ) (status : Bool) (command : Command)
    (fields : List (Option (List UInt8))) : Prop :=
  ∃ params : List Parameter, (processAtExtendCommand groups b i status).events = [.call command .execWParam params] ∧
    params.length = fields.length ∧
    (∀ (k : ℕ) (f : List UInt8), fields[k]? = some (some f) → (params[k]?).map Parameter.stringValue = some f) ∧
    ∀ k : ℕ, fields[k]? = some none → (defaultParamterFlag b i).testBit k = true

/-- The text of some fields is empty, or starts with a comma or a quote. -/
theorem fieldsText_head (h : ∀ f, some f ∈ fields → nul ∉ f) :
    fieldsText fields = [] ∨ ∃ c t, fieldsText fields = c :: t ∧ c ≠ question := by
  rcases fieldsText_cases h with hb | ⟨f, u, hq, -, -⟩
  · cases hx : fieldsText fields with
    | nil => exact .inl rfl
    | cons c t =>
      rw [hx] at hb
      exact .inr ⟨c, t, rfl, by rw [hb.tail.1]; decide⟩
  · exact .inr ⟨quote, _, hq, by decide⟩

theorem length_le_fieldsText (fs : List (List UInt8)) : fs.length ≤ (fieldsText (fs.map some)).length := by
  induction fs with
  | nil => exact le_rfl
  | cons f fs ih =>
    cases fs with
    | nil => simp [fieldsText, fieldText, quoted]
    | cons f' fs =>
      simp only [List.map_cons, fieldsText, fieldText, List.length_append, List.length_cons] at ih ⊢
      omega

/-- All parameters that arrive are whole strings. -/
theorem whole_of_call (h : Ahead b i (plus :: name ++ equals :: fieldsText fields))
    (hname : ∀ c ∈ name, isNameChar c = true) (hfound : findCommandByString groups (plus :: name) = some command)
    (hn : ∀ f, some f ∈ fields → nul ∉ f) {params : List Parameter}
    (hevents : (processAtExtendCommand groups b i status).events = [.call command .execWParam params]) :
    ∀ q ∈ params, Whole q.stringValue := by
  rcases fieldsText_head hn with htext | ⟨c, t, htext, hc⟩
  · rw [htext] at h
    rw [extend_nothing h hname] at hevents
    cases List.cons.inj hevents |>.1
  · rw [htext] at h
    obtain ⟨b', j, hahead, hextend⟩ := extend_params h hname hc hfound status
    have hwithin := scanParams_within b'.length
      (p := ⟨b', j, false, [], true, false, false⟩) ⟨⟨c :: t, hahead, htext ▸ .fields fields hn⟩, rfl, rfl, [], .nil, by simp⟩
    generalize scanParams b'.length ⟨b', j, false, [], true, false, false⟩ = r at hextend hwithin
    rw [hextend] at hevents
    simp only [hwithin.abort, hwithin.result, Bool.false_eq_true, if_false, Bool.true_eq_false, false_or] at hevents
    cases hin : r.insideQuotes with
    | true =>
      rw [hin] at hevents
      exact absurd hevents (by simp)
    | false =>
      rw [hin] at hevents
      simp only [Bool.false_eq_true, if_false, execute] at hevents
      split at hevents
      next =>
        obtain ⟨u, hu, -⟩ := hwithin.left
        obtain ⟨done, hdone, hwhole⟩ := hwithin.held
        have hindex : r.index ≤ maximumCommandStringLength + 1 := by
          have hl := hu.length
          have hf := hu.fits
          omega
        have hstrings := hdone.strings (fun f hf => (hwhole f hf).1) hindex
        simp only [List.cons.injEq, Event.call.injEq, true_and, and_true] at hevents
        intro q hq
        rw [← hevents] at hq
        obtain ⟨x, hx, rfl⟩ := List.mem_map.mp hq
        refine (hwhole _ ?_).2
        rw [← hstrings]
        exact List.mem_map_of_mem hx
      next => exact absurd hevents (by simp)

/-- Whole strings arrive. -/
theorem call_of_whole {fs : List (List UInt8)} (h : Ahead b i (plus :: name ++ equals :: fieldsText (fs.map some)))
    (hname : ∀ c ∈ name, isNameChar c = true) (hfound : findCommandByString groups (plus :: name) = some command)
    (hflag : command.commandFlags.testBit OpType.execWParam.bit = true) (hne : fs ≠ [])
    (hlen : fs.length ≤ maximumNumberOfParameters) (hn : ∀ f ∈ fs, nul ∉ f) (hf : ∀ f ∈ fs, Whole f) (status : Bool) :
    ∃ params : List Parameter,
      (processAtExtendCommand groups b i status).events = [.call command .execWParam params] ∧
        params.map Parameter.stringValue = fs := by
  have hn' : ∀ f, some f ∈ fs.map some → nul ∉ f := fun f hf => hn f (by simpa using hf)
  have hle := length_le_fieldsText fs
  rcases fieldsText_head hn' with htext | ⟨c, t, htext, hc⟩
  · rw [htext] at hle
    exact absurd (List.eq_nil_of_length_eq_zero (Nat.le_zero.mp hle)) hne
  · have hahead := h
    rw [htext] at hahead
    obtain ⟨b', j, hahead, hextend⟩ := extend_params hahead hname hc hfound status
    rw [← htext] at hahead
    have hfuel : fs.length ≤ b'.length := by
      have hl := hahead.length
      omega
    have hfed : Fed ⟨b', j, false, [], true, false, false⟩ (fieldsText (fs.map some)) [] :=
      ⟨hahead, rfl, rfl, rfl, rfl, .nil⟩
    obtain ⟨hresult, habort, hin, hend, hheld⟩ := hfed.run hne hf (by simpa using hlen) hfuel
    generalize scanParams b'.length ⟨b', j, false, [], true, false, false⟩ = r at hextend hresult habort hin hend hheld
    rw [hextend]
    simp only [hresult, habort, hin, Bool.false_eq_true, if_false, Bool.true_eq_false, or_self, execute]
    rw [if_pos hflag]
    refine ⟨_, rfl, ?_⟩
    rw [List.map_map]
    have hindex : r.index ≤ maximumCommandStringLength + 1 := by
      have hl := hend.length
      have hfits := hend.fits
      omega
    exact hheld.strings hn hindex

/-- The fields are passed on as they are exactly if there is one, none is empty, and every string is whole. -/
theorem passed_iff (h : Ahead b i (plus :: name ++ equals :: fieldsText fields))
    (hname : ∀ c ∈ name, isNameChar c = true) (hfound : findCommandByString groups (plus :: name) = some command)
    (hflag : command.commandFlags.testBit OpType.execWParam.bit = true)
    (hlen : fields.length ≤ maximumNumberOfParameters) (hn : ∀ f, some f ∈ fields → nul ∉ f) (status : Bool) :
    Passed groups b i status command fields ↔ fields ≠ [] ∧ ∀ o ∈ fields, ∃ f, o = some f ∧ Whole f := by
  constructor
  · rintro ⟨params, hevents, hplen, hstrings, hdefaults⟩
    refine ⟨fun hnil => ?_, fun o ho => ?_⟩
    · rw [hnil] at h
      rw [extend_nothing h hname] at hevents
      cases List.cons.inj hevents |>.1
    · obtain ⟨k, hk⟩ := List.mem_iff_getElem?.mp ho
      cases o with
      | none =>
        have hbit := hdefaults k hk
        rw [defaultParamterFlag_eq, Nat.zero_testBit] at hbit
        cases hbit
      | some f =>
        obtain ⟨q, hq, rfl⟩ := Option.map_eq_some_iff.mp (hstrings k f hk)
        exact ⟨_, rfl, whole_of_call h hname hfound hn hevents q (List.mem_of_getElem? hq)⟩
  · rintro ⟨hne, hall⟩
    obtain ⟨fs, rfl⟩ : fields ∈ Set.range (List.map some) := by
      rw [Set.range_list_map]
      intro o ho
      obtain ⟨f, rfl, -⟩ := hall o ho
      exact ⟨f, rfl⟩
    have hwhole : ∀ f ∈ fs, Whole f := fun f hf => by
      obtain ⟨g, hg, hw⟩ := hall (some f) (List.mem_map_of_mem hf)
      cases Option.some.inj hg
      exact hw
    obtain ⟨params, hevents, hmap⟩ := call_of_whole h hname hfound hflag (by simpa using hne) (by simpa using hlen)
      (fun f hf => hn f (by simpa using hf)) hwhole status
    refine ⟨params, hevents, ?_, fun k f hk => ?_, fun k hk => ?_⟩
    · rw [← hmap, List.length_map, List.length_map]
    · rw [← List.getElem?_map, hmap]
      simpa using hk
    · simp at hk

/-- `+A="x"` -/
theorem passed_one :
    let b : Input := ⟨fun i => [plus, 0x41, equals, quote, 0x78, quote].getD i nul, 6⟩
    let command : Command := ⟨[plus, 0x41], 8⟩
    Passed [[command]] b 0 true command [some [0x78]] ↔
      [some [0x78]] ≠ ([] : List (Option (List UInt8))) ∧
        ∀ o ∈ [some [0x78]], ∃ f : List UInt8, o = some f ∧ Whole f :=
  passed_iff (show Ahead _ 0 (plus :: [0x41] ++ equals :: fieldsText [some [0x78]]) from
    ⟨⟨rfl, rfl, rfl, rfl, rfl, rfl, trivial⟩, rfl, by decide⟩) (by decide +kernel) (by decide) (by decide) (by decide)
    (by simp [nul]) true

/-- `+A="a;b"` ends at the semicolon, with an open quote. -/
theorem semicolon_not_passed :
    ¬ ∀ (groups : List (List Command)) (b : Input) (i : ℕ) (status : Bool) (command : Command) (name : List UInt8)
      (fields : List (Option (List UInt8))), Ahead b i (plus :: name ++ equals :: fieldsText fields) →
      (∀ c ∈ name, isNameChar c = true) → findCommandByString groups (plus :: name) = some command →
      command.commandFlags.testBit OpType.execWParam.bit = true → fields.length ≤ maximumNumberOfParameters →
      (∀ f, some f ∈ fields → ∀ c ∈ f, 0x20 ≤ c ∧ c ≤ 0x7E) → Passed groups b i status command fields := by
  intro h
  obtain ⟨params, hevents, -⟩ := h [[⟨[plus, 0x41], 8⟩]]
    ⟨fun i => [plus, 0x41, equals, quote, 0x61, semicolon, 0x62, quote].getD i nul, 8⟩ 0 true ⟨[plus, 0x41], 8⟩ [0x41]
    [some [0x61, semicolon, 0x62]] ⟨⟨rfl, rfl, rfl, rfl, rfl, rfl, rfl, rfl, trivial⟩, rfl, by decide⟩
    (by decide +kernel) (by decide) (by decide) (by decide) (by simp; decide)
  have herror : (processAtExtendCommand [[⟨[plus, 0x41], 8⟩]]
      ⟨fun i => [plus, 0x41, equals, quote, 0x61, semicolon, 0x62, quote].getD i nul, 8⟩ 0 true).events = [.error] := by
    decide +kernel
  rw [herror] at hevents
  cases List.cons.inj hevents |>.1

end Qcc730.Qat

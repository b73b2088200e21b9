import Qcc730.Qat.Scan

/-! What the text of some parameters stands for, apart from the buffer it is in.

    The reader goes through a text without semicolons the way the loops of the parser do, but takes characters off a
    list. The parser does the same to a line that has the text in it, whether the line ends behind the text or goes
    on with a semicolon. It does not do so for the escape `\xhh`, which the reader can be told to refuse. -/

namespace Qcc730.Qat

open Lib

/-! ### The reader -/

/-- A character that ends a parameter. -/
def endsParam (inside : Bool) (c : UInt8) : Bool := c == quote || (!inside && c == comma) || c == closeBrace

/-- What stands behind the backslash of an escape: the byte it means, and the text behind the escape. -/
def readEscape (hex : Bool) : List UInt8 → Option (UInt8 × List UInt8)
  | [] => none
  | d :: t =>
    if isEscaped d then some (d, t)
    else if hex && d == lowerX then
      match t with
      | h :: l :: t =>
        match hexDigit h, hexDigit l with
        | some hi, some lo => some (hi <<< 4 ||| lo, t)
        | _, _ => none
      | _ => none
    else none

/-- A parameter, and the text from where it ends. -/
def readParam (hex inside : Bool) : ℕ → List UInt8 → Option (List UInt8 × List UInt8)
  | 0, _ => none
  | _ + 1, [] => some ([], [])
  | fuel + 1, c :: t =>
    if endsParam inside c then some ([], c :: t)
    else if c = backslash then
      match readEscape hex t with
      | none => none
      | some (d, t) => (readParam hex inside fuel t).map fun r => (d :: r.1, r.2)
    else (readParam hex inside fuel t).map fun r => (c :: r.1, r.2)

/-- A character that is skipped in front of a parameter. -/
def isSkipped (c : UInt8) : Bool := c == space || c == openBrace || c == comma || c == closeBrace

/-- The parameters, and whether the last one ends with the text. -/
def readParams (hex : Bool) : ℕ → Bool → List UInt8 → Option (List (List UInt8) × Bool)
  | 0, _, _ => none
  | _ + 1, inside, [] => if inside then none else some ([], false)
  | fuel + 1, inside, c :: t =>
    if isSkipped c then readParams hex fuel inside t
    else
      let inside := inside || c == quote
      let t := if c = quote then t else c :: t
      if t.head? = some comma then readParams hex fuel inside t
      else if t = [] then readParams hex fuel inside t
      else
        match readParam hex inside (t.length + 1) t with
        | none => none
        | some (f, []) => if inside then none else some ([f], true)
        | some (f, e :: t) =>
          (readParams hex fuel (inside != (e == quote)) (if e = quote then t.tail else t)).map fun r =>
            (f :: r.1, r.2)

variable {p : ParamScan} {b b' : Input} {c : UInt8} {f t u rest tail : List UInt8} {i fuel k : ℕ} {inside : Bool}

/-! ### A parameter -/

/-- Without `\xhh`, an escape is a backslash or a quote. -/
theorem readEscape_spec (h : readEscape false t = some (c, u)) : t = c :: u ∧ isEscaped c = true := by
  cases t with
  | nil => cases h
  | cons d t =>
    rw [readEscape.eq_def] at h
    simp only [Bool.false_and, Bool.false_eq_true, if_false] at h
    split at h
    next hd =>
      cases h
      exact ⟨rfl, hd⟩
    next => cases h

/-- The reader takes parameters out of its text, and stands where one ends. -/
theorem readParam_spec (h : readParam false inside k t = some (f, rest)) :
    (∀ c ∈ f, c ∈ t) ∧ rest <:+ t ∧ ∀ e ∈ rest.head?, endsParam inside e = true := by
  induction k generalizing t f with
  | zero => cases h
  | succ k ih =>
    cases t with
    | nil =>
      cases h
      exact ⟨by simp, List.suffix_refl _, by simp⟩
    | cons c t =>
      rw [readParam] at h
      split at h
      next hc =>
        cases h
        exact ⟨by simp, List.suffix_refl _, fun e he => by cases Option.some.inj he; exact hc⟩
      next =>
        split at h
        next =>
          split at h
          next => cases h
          next d u hesc =>
            obtain ⟨rfl, -⟩ := readEscape_spec hesc
            obtain ⟨⟨g, r⟩, hr, hgr⟩ := Option.map_eq_some_iff.mp h
            cases hgr
            obtain ⟨hmem, hsuf, hend⟩ := ih hr
            refine ⟨fun x hx => ?_, hsuf.trans ((List.suffix_cons _ _).trans (List.suffix_cons _ _)), hend⟩
            rcases List.mem_cons.mp hx with rfl | hx
            · simp
            · exact List.mem_cons_of_mem _ (List.mem_cons_of_mem _ (hmem x hx))
        next =>
          obtain ⟨⟨g, r⟩, hr, hgr⟩ := Option.map_eq_some_iff.mp h
          cases hgr
          obtain ⟨hmem, hsuf, hend⟩ := ih hr
          refine ⟨fun x hx => ?_, hsuf.trans (List.suffix_cons _ _), hend⟩
          rcases List.mem_cons.mp hx with rfl | hx
          · exact List.mem_cons_self
          · exact List.mem_cons_of_mem _ (hmem x hx)

/-- What the line goes on with behind the text. -/
def Ends (tail : List UInt8) : Prop := tail = [] ∨ ∃ u, tail = semicolon :: u

/-- Where the reader stops, the loop to the end of a parameter stops. -/
theorem scanParam_stop (h : Ahead p.input p.index (rest ++ tail)) (htail : Ends tail)
    (hend : ∀ e ∈ rest.head?, endsParam p.insideQuotes e = true) (fuel : ℕ) : scanParam fuel p = p := by
  cases fuel with
  | zero => rfl
  | succ fuel =>
    rw [scanParam, if_neg]
    rintro ⟨-, hlt, hq, hin, hsemi, hbrace⟩
    cases rest with
    | nil =>
      rcases htail with rfl | ⟨u, rfl⟩
      · have hl := h.length
        simp only [List.append_nil, List.length_nil] at hl
        omega
      · exact hsemi h.reads.head
    | cons e rest =>
      have he := hend e rfl
      have hi : p.input.string p.index = e := h.reads.head
      rw [hi] at hq hin hbrace
      simp only [endsParam, Bool.or_eq_true, Bool.and_eq_true, beq_iff_eq, Bool.not_eq_true'] at he
      rcases he with (he | ⟨hout, he⟩) | he
      · exact hq he
      · rcases hin with hin | hin
        · rw [hout] at hin
          cases hin
        · exact hin he
      · exact hbrace he

/-- The loop to the end of a parameter reads what the reader reads. -/
theorem scanParam_reads (h : Ahead p.input p.index (t ++ tail)) (htail : Ends tail) (hs : semicolon ∉ t)
    (hr : p.result = true) (ha : p.abort = false) (hread : readParam false p.insideQuotes k t = some (f, rest))
    (hf : t.length ≤ fuel) :
    ∃ b, scanParam fuel p = { p with input := b, index := p.index + f.length } ∧
      Ahead b (p.index + f.length) (rest ++ tail) ∧ Reads b.string p.index f ∧ Frame p.input b p.index := by
  induction k generalizing t f p fuel with
  | zero => cases hread
  | succ k ih =>
    cases t with
    | nil =>
      cases hread
      exact ⟨p.input, scanParam_stop h htail (by simp) _, h, trivial, .refl _ _⟩
    | cons c t =>
      rw [List.length_cons] at hf
      have hend := (readParam_spec hread).2.2
      rw [readParam] at hread
      split at hread
      next =>
        cases hread
        exact ⟨p.input, scanParam_stop h htail hend _, h, trivial, .refl _ _⟩
      next hc =>
        obtain ⟨fuel, rfl⟩ : ∃ k, fuel = k + 1 := ⟨fuel - 1, by omega⟩
        have hi : p.input.string p.index = c := h.reads.head
        have hadd : ∀ n, p.index + 1 + n = p.index + (n + 1) := fun n => by omega
        have hcs : c ≠ semicolon := fun h0 => hs (by rw [h0]; exact List.mem_cons_self)
        simp only [endsParam, Bool.or_eq_true, Bool.and_eq_true, beq_iff_eq, Bool.not_eq_true', not_or, not_and] at hc
        have hcond : p.result = true ∧ p.index < p.input.length ∧ c ≠ quote ∧
            (p.insideQuotes = true ∨ c ≠ comma) ∧ c ≠ semicolon ∧ c ≠ closeBrace := by
          refine ⟨hr, h.lt, hc.1.1, ?_, hcs, hc.2⟩
          cases hin : p.insideQuotes with
          | true => exact .inl rfl
          | false => exact .inr (hc.1.2 hin)
        split at hread
        next hb =>
          split at hread
          next => cases hread
          next d u hesc =>
            obtain ⟨rfl, hd⟩ := readEscape_spec hesc
            obtain ⟨⟨g, r⟩, hr', hgr⟩ := Option.map_eq_some_iff.mp hread
            cases hgr
            subst hb
            rw [List.length_cons] at hf
            obtain ⟨b, hesc, hat, hframe, hahead⟩ := h.escape hd
            have hfuel : u.length ≤ fuel := by omega
            obtain ⟨b', hrun, hahead', hreads, hframe'⟩ := ih
              (p := { p with input := b, index := p.index + 1 }) hahead
              (fun h0 => hs (List.mem_cons_of_mem _ (List.mem_cons_of_mem _ h0))) hr ha hr' hfuel
            simp only [hadd] at hrun hahead' hreads hframe'
            refine ⟨b', ?_, hahead', ⟨(hframe'.below _ (Nat.lt_succ_self _)).trans hat, hreads⟩,
              hframe.trans hframe' (Nat.le_succ _)⟩
            rw [List.length_cons, ← hrun]
            simp only [scanParam]
            rw [hi, if_pos hcond, if_pos rfl, hesc]
            simp only [ha, Bool.false_eq_true, if_false]
        next hb =>
          obtain ⟨⟨g, r⟩, hr', hgr⟩ := Option.map_eq_some_iff.mp hread
          cases hgr
          have hfuel : t.length ≤ fuel := by omega
          obtain ⟨b', hrun, hahead', hreads, hframe'⟩ := ih
            (p := { p with index := p.index + 1 }) h.next
            (fun h0 => hs (List.mem_cons_of_mem _ h0)) hr ha hr' hfuel
          simp only [hadd] at hrun hahead' hreads hframe'
          refine ⟨b', ?_, hahead', ⟨(hframe'.below _ (Nat.lt_succ_self _)).trans hi, hreads⟩,
            hframe'.mono (Nat.le_succ _)⟩
          rw [List.length_cons, ← hrun]
          simp only [scanParam]
          rw [hi, if_pos hcond, if_neg hb]
          simp only [ha, Bool.false_eq_true, if_false]

/-! ### The parameters -/

/-- The parameter for a string. -/
def parameter (f : List UInt8) : Parameter := ⟨f, stringToInteger f⟩

/-- Between two parameters: the strings so far stand in the buffer, with their values. -/
structure Mid (p : ParamScan) (t : List UInt8) (done : List (List UInt8)) : Prop where
  ahead : Ahead p.input p.index t
  result : p.result = true
  abort : p.abort = false
  held : Holds p.input.string p.index p.params done
  values : p.params.map Prod.snd = done.map stringToInteger
  whole : ∀ f ∈ done, nul ∉ f

/-- The parameters have been read, and the line goes on behind them. -/
structure Finished (b : Input) (i : ℕ) (q : ParamScan) (tail : List UInt8) (done : List (List UInt8)) : Prop where
  result : q.result = true
  abort : q.abort = false
  outside : q.insideQuotes = false
  params : q.params.map (fun x => (⟨q.input.cString x.1, x.2⟩ : Parameter)) = done.map parameter
  frame : Frame b q.input i
  rest : ∃ u, Ahead q.input q.index u ∧ (tail = u ∨ tail = semicolon :: u)

variable {done ps : List (List UInt8)} {bare : Bool}

theorem parameters_eq {params : List (ℕ × Option ℤ)} (hstrings : params.map (fun x => b.cString x.1) = done)
    (hvalues : params.map Prod.snd = done.map stringToInteger) :
    params.map (fun x => (⟨b.cString x.1, x.2⟩ : Parameter)) = done.map parameter := by
  subst hstrings
  rw [List.map_map] at hvalues ⊢
  refine List.map_congr_left fun x hx => ?_
  have hx := List.map_inj_left.mp hvalues x hx
  simp only [Function.comp_apply, parameter] at hx ⊢
  rw [hx]

/-- Nothing is left of the text. -/
theorem Mid.finished (h : Mid p u done) (hout : p.insideQuotes = false) (htail : tail = u ∨ tail = semicolon :: u)
    (hframe : Frame b p.input i) : Finished b i p tail done := by
  have hindex : p.index ≤ maximumCommandStringLength + 1 := by
    have hl := h.ahead.length
    have hf := h.ahead.fits
    omega
  exact ⟨h.result, h.abort, hout, parameters_eq (h.held.strings h.whole hindex) h.values, hframe, u, h.ahead, htail⟩

/-- A zero byte behind the line stays there. -/
theorem Frame.nul_behind (h : Frame b b' i) (hb : b.string b.length = nul) : b'.string b'.length = nul := by
  rw [h.behind _ le_rfl]
  split
  next => rfl
  next hge =>
    have heq : b'.length = b.length := le_antisymm h.length (by omega)
    rw [heq, hb]

/-- A parameter that has been cut off is one of those that have been read. -/
theorem Mid.snoc {q : ParamScan} {sub : Bool} (h : Mid p t done) (hf : nul ∉ f) (hreads : Reads b.string i f)
    (hi : p.index ≤ i) (hframe : Frame p.input b i) (hframe' : Frame b b' (i + f.length))
    (hnul : b'.string (i + f.length) = nul) (hlt : i + f.length < k) (hahead : Ahead b' k u)
    (hq : q = { p with
      input := b', index := k, insideQuotes := inside, subCommand := sub,
      params := p.params ++ [(i, stringToInteger (b'.cString i))] }) :
    Mid q u (done ++ [f]) := by
  have hreads' : Reads b'.string i (f ++ [nul]) :=
    Reads.append_iff.mpr ⟨hreads.congr fun j _ hj => hframe'.below j hj, hnul, trivial⟩
  have hstring : b'.cString i = f := by
    refine cString_of_reads hreads' hf ?_
    have hl := hahead.length
    have hfits := hahead.fits
    omega
  subst hq
  refine ⟨hahead, h.result, h.abort, ?_, ?_, ?_⟩
  · refine (h.held.congr (by simp only; omega) fun j hj => ?_).snoc hreads' hlt
    rw [hframe'.below j (by omega), hframe.below j (by omega)]
  · simp only [List.map_append, List.map_cons, List.map_nil, h.values, hstring]
  · intro g hg
    rcases List.mem_append.mp hg with hg | hg
    · exact h.whole g hg
    · rw [List.mem_singleton.mp hg]
      exact hf

/-- The loop over the parameters is at its end where the text is. -/
theorem scanParams_stop (h : Ahead p.input p.index tail) (htail : Ends tail) (fuel : ℕ) : scanParams fuel p = p := by
  cases fuel with
  | zero => rfl
  | succ fuel =>
    rw [scanParams, if_neg]
    rintro ⟨-, hlt, -, hsemi⟩
    rcases htail with rfl | ⟨u, rfl⟩
    · have hl := h.length
      rw [List.length_nil] at hl
      omega
    · exact hsemi h.reads.head

/-- A parameter that a character ends. -/
theorem param_ended {e : UInt8} (h : Mid p (t ++ tail) done) (hsub : p.subCommand = false) (htail : Ends tail)
    (hs : semicolon ∉ t) (hn : nul ∉ t) (hread : readParam false p.insideQuotes k t = some (f, e :: rest))
    (hfuel : t.length ≤ fuel) :
    ∃ q u, (scanParam fuel p).finish p.index = q ∧ (scanParam fuel p).abort = false ∧
      q.insideQuotes = (p.insideQuotes != (e == quote)) ∧ Frame p.input q.input p.index ∧ p.index ≤ q.index ∧
      Mid q u (done ++ [f]) ∧
      ((u = (if e = quote then rest.tail else rest) ++ tail ∧ q.subCommand = false) ∨
        ((if e = quote then rest.tail else rest) = [] ∧ (tail = u ∨ tail = semicolon :: u) ∧
          (q.subCommand = true ∨ tail = []))) := by
  obtain ⟨b, hrun, hahead, hreads, hframe⟩ := scanParam_reads h.ahead htail hs h.result h.abort hread hfuel
  obtain ⟨hmem, hsuf, hend⟩ := readParam_spec hread
  have hf : nul ∉ f := fun h0 => hn (hmem _ h0)
  rw [hrun]
  by_cases hq : e = quote
  · subst hq
    simp only [if_true]
    have hin : ∀ b : Bool, (b != (quote == quote)) = !b := by decide
    rw [hin]
    cases rest with
    | nil =>
      rcases htail with rfl | ⟨u, rfl⟩
      · obtain ⟨b', sub, hfin, hnul, hframe', hahead'⟩ :=
          finish_end (p := { p with input := b, index := p.index + f.length }) hahead p.index
        exact ⟨_, [], hfin, h.abort, rfl, hframe.trans (hframe'.mono (Nat.le_add_right _ _)) le_rfl,
          by simp only; omega, h.snoc hf hreads le_rfl (hframe) hframe' hnul (Nat.lt_succ_self _) hahead' rfl,
          .inr ⟨rfl, .inl rfl, .inr rfl⟩⟩
      · obtain ⟨b', hfin, hnul, hframe', hahead'⟩ :=
          finish_quote (p := { p with input := b, index := p.index + f.length }) hahead p.index
        exact ⟨_, u, hfin, h.abort, rfl, hframe.trans (hframe'.mono (Nat.le_add_right _ _)) le_rfl,
          by simp only; omega, h.snoc hf hreads le_rfl hframe hframe' hnul (by simp only; omega) hahead' rfl,
          .inr ⟨rfl, .inr rfl, .inl (by simp)⟩⟩
    | cons x rest =>
      have hx : x ≠ semicolon := fun h0 => hs (hsuf.subset (by rw [h0]; simp))
      obtain ⟨b', hfin, hnul, hframe', hahead'⟩ :=
        finish_quote (p := { p with input := b, index := p.index + f.length }) hahead p.index
      refine ⟨_, _, hfin, h.abort, rfl, hframe.trans (hframe'.mono (Nat.le_add_right _ _)) le_rfl,
        by simp only; omega, h.snoc hf hreads le_rfl hframe hframe' hnul (by simp only; omega) hahead' rfl,
        .inl ⟨rfl, ?_⟩⟩
      simp [hsub, hx]
  · have hin : ∀ b : Bool, (b != (e == quote)) = b := by
      intro b
      have : (e == quote) = false := by simpa using hq
      rw [this]
      cases b <;> rfl
    have hx : e ≠ semicolon := fun h0 => hs (hsuf.subset (by rw [h0]; simp))
    rw [hin, if_neg hq]
    obtain ⟨b', hfin, hnul, hframe', hahead'⟩ :=
      finish_stop (p := { p with input := b, index := p.index + f.length }) hahead hq p.index
    refine ⟨_, _, hfin, h.abort, rfl, hframe.trans (hframe'.mono (Nat.le_add_right _ _)) le_rfl,
      by simp only; omega, h.snoc hf hreads le_rfl hframe hframe' hnul (Nat.lt_succ_self _) hahead' rfl,
      .inl ⟨rfl, ?_⟩⟩
    simp [hsub, hx]

/-- A parameter that ends with the text: if the line ends there as well, it needs the zero byte behind the line. -/
theorem param_open (h : Mid p (t ++ tail) done) (hout : p.insideQuotes = false) (htail : Ends tail)
    (hs : semicolon ∉ t) (hn : nul ∉ t) (hread : readParam false p.insideQuotes k t = some (f, []))
    (hfuel : t.length ≤ fuel) (hbare : tail = [] → p.input.string p.input.length = nul) :
    ∃ q, (scanParam fuel p).finish p.index = q ∧ (scanParam fuel p).abort = false ∧
      Finished p.input p.index q tail (done ++ [f]) ∧ (q.subCommand = true ∨ Ahead q.input q.index []) := by
  obtain ⟨b, hrun, hahead, hreads, hframe⟩ := scanParam_reads h.ahead htail hs h.result h.abort hread hfuel
  have hf : nul ∉ f := fun h0 => hn ((readParam_spec hread).1 _ h0)
  rw [hrun]
  rcases htail with rfl | ⟨u, rfl⟩
  · have hl := hahead.length
    simp only [List.append_nil, List.length_nil, Nat.add_zero] at hl
    have hbehind : b.string (p.index + f.length) = nul := by
      rw [← hl]
      exact hframe.nul_behind (hbare rfl)
    have hfin : ParamScan.finish { p with input := b, index := p.index + f.length } p.index =
        { p with
          input := b, index := p.index + f.length,
          subCommand := p.subCommand || b.string (p.index + f.length) == semicolon,
          params := p.params ++ [(p.index, stringToInteger (b.cString p.index))] } := by
      have hclose : ParamScan.closeQuote { p with input := b, index := p.index + f.length } =
          { p with input := b, index := p.index + f.length } := by
        simp only [ParamScan.closeQuote]
        rw [if_neg (by rw [hbehind]; decide)]
      simp only [ParamScan.finish, hclose]
      rw [if_neg (by rw [hl]; exact lt_irrefl _)]
    have hfits := hahead.fits
    have hstring : b.cString p.index = f :=
      cString_of_reads (Reads.append_iff.mpr ⟨hreads, hbehind, trivial⟩) hf (by omega)
    have hstrings : p.params.map (fun x => b.cString x.1) = done := by
      refine (h.held.congr le_rfl fun j hj => hframe.below j hj).strings h.whole ?_
      omega
    refine ⟨_, hfin, h.abort, ⟨h.result, h.abort, hout, ?_, hframe, [], hahead, .inl rfl⟩, .inr hahead⟩
    refine parameters_eq ?_ ?_
    · rw [List.map_append, hstrings, List.map_singleton, hstring]
    · simp only [List.map_append, h.values, hstring, List.map_singleton]
  · obtain ⟨b', hfin, hnul, hframe', hahead'⟩ :=
      finish_stop (p := { p with input := b, index := p.index + f.length }) hahead (by decide) p.index
    refine ⟨_, hfin, h.abort, Mid.finished (u := u) ?_ hout (.inr rfl)
      (hframe.trans (hframe'.mono (Nat.le_add_right _ _)) le_rfl), .inl (by simp)⟩
    exact h.snoc hf hreads le_rfl hframe hframe' hnul (Nat.lt_succ_self _) hahead' rfl

theorem isSkipped_iff : isSkipped c = true ↔ c = space ∨ c = openBrace ∨ c = comma ∨ c = closeBrace := by
  simp [isSkipped, or_assoc]

/-- Of an empty text the reader takes nothing, outside quotes. -/
theorem readParams_nil (h : readParams false k inside [] = some (ps, bare)) : inside = false ∧ ps = [] := by
  cases k with
  | zero => cases h
  | succ k =>
    rw [readParams] at h
    split at h
    next => cases h
    next hin =>
      cases h
      exact ⟨by simpa using hin, rfl⟩

/-- A character between two parameters is left behind. -/
theorem Mid.next (h : Mid p (c :: t) done) : Mid { p with index := p.index + 1 } t done :=
  ⟨h.ahead.next, h.result, h.abort, h.held.congr (Nat.le_succ _) fun _ _ => rfl, h.values, h.whole⟩

/-- The parser stands in front of what the reader takes for the first character of a parameter, behind the quote that
    may open it. -/
theorem Mid.opened (h : Mid p (c :: t ++ tail) done) (hsub : p.subCommand = false) (hs : semicolon ∉ c :: t)
    (hn : nul ∉ c :: t) :
    ∃ (q : ParamScan) (v : List UInt8),
      (if c = quote then { p with insideQuotes := true, index := p.index + 1 } else p) = q ∧
      (if c = quote then t else c :: t) = v ∧ Mid q (v ++ tail) done ∧ q.subCommand = false ∧
      q.insideQuotes = (p.insideQuotes || c == quote) ∧ semicolon ∉ v ∧ nul ∉ v ∧ q.input = p.input ∧
      p.index ≤ q.index ∧ (v = [] → q.insideQuotes = true) := by
  by_cases hq : c = quote
  · have hnext := h.next
    refine ⟨{ p with insideQuotes := true, index := p.index + 1 }, t, by rw [if_pos hq], by rw [if_pos hq],
      ⟨hnext.ahead, hnext.result, hnext.abort, hnext.held, hnext.values, hnext.whole⟩, hsub, ?_,
      fun h0 => hs (List.mem_cons_of_mem _ h0), fun h0 => hn (List.mem_cons_of_mem _ h0), rfl, Nat.le_succ _,
      fun _ => rfl⟩
    simp [hq]
  · exact ⟨p, c :: t, by rw [if_neg hq], by rw [if_neg hq], h, hsub, by simp [hq], hs, hn, rfl, le_rfl,
      fun hv => by cases hv⟩

/-- What is not in the text is not behind the parameter either. -/
theorem not_mem_behind {e x : UInt8} (h : readParam false inside k t = some (f, e :: rest)) (hx : x ∉ t) :
    x ∉ if e = quote then rest.tail else rest := by
  intro hmem
  refine hx ((readParam_spec h).2.1.subset (List.mem_cons_of_mem _ ?_))
  split at hmem
  · exact List.mem_of_mem_tail hmem
  · exact hmem

/-- Behind the last parameter the reader has nothing left, and the loop over the parameters stops. -/
theorem Mid.last {q : ParamScan} (h : Mid q u done) (hread : readParams false k q.insideQuotes [] = some (ps, bare))
    (htail : tail = u ∨ tail = semicolon :: u) (hstop : q.subCommand = true ∨ tail = []) (hframe : Frame b q.input i) :
    Finished b i (if q.subCommand = true then q else scanParams fuel q) tail (done ++ ps) := by
  obtain ⟨hout, rfl⟩ := readParams_nil hread
  have hdone : (if q.subCommand = true then q else scanParams fuel q) = q := by
    rcases hstop with hstop | rfl
    · rw [if_pos hstop]
    · rcases htail with rfl | htail
      · rw [scanParams_stop h.ahead (.inl rfl), ite_self]
      · cases htail
  rw [hdone, List.append_nil]
  exact h.finished hout htail hframe

/-- The loop over the parameters reads what the reader reads. -/
theorem scanParams_reads (h : Mid p (t ++ tail) done) (hsub : p.subCommand = false) (htail : Ends tail)
    (hs : semicolon ∉ t) (hn : nul ∉ t) (hread : readParams false k p.insideQuotes t = some (ps, bare))
    (hcount : done.length + ps.length ≤ maximumNumberOfParameters)
    (hbare : bare = true → tail = [] → p.input.string p.input.length = nul) (hfuel : k ≤ fuel) :
    Finished p.input p.index (scanParams fuel p) tail (done ++ ps) := by
  induction k generalizing t p done ps fuel with
  | zero => cases hread
  | succ k ih =>
    cases t with
    | nil =>
      obtain ⟨hout, rfl⟩ := readParams_nil hread
      rw [scanParams_stop h.ahead htail, List.append_nil]
      exact h.finished hout (.inl rfl) (.refl _ _)
    | cons c t =>
      obtain ⟨fuel, rfl⟩ : ∃ n, fuel = n + 1 := ⟨fuel - 1, by omega⟩
      have hfuel' : k ≤ fuel := by omega
      have hi : p.input.string p.index = c := h.ahead.reads.head
      have hcs : c ≠ semicolon := fun h0 => hs (by rw [h0]; exact List.mem_cons_self)
      have hlength : p.params.length = done.length := h.held.length_eq
      rw [readParams] at hread
      rw [scanParams, if_pos ⟨h.result, h.ahead.lt, by omega, by rw [hi]; exact hcs⟩]
      simp only [hi, ← isSkipped_iff]
      split at hread
      next hskip =>
        rw [if_pos hskip]
        have hfin := ih h.next hsub (fun h0 => hs (List.mem_cons_of_mem _ h0)) (fun h0 => hn (List.mem_cons_of_mem _ h0))
          hread hcount hbare hfuel'
        exact { hfin with frame := hfin.frame.mono (Nat.le_succ _) }
      next hskip =>
        rw [if_neg hskip]
        obtain ⟨q, v, hq, hv, hmid, hqsub, hqin, hvs, hvn, hinput, hle, hvnil⟩ := h.opened hsub hs hn
        rw [hq]
        simp only [hv, ← hqin] at hread
        have hbare' : bare = true → tail = [] → q.input.string q.input.length = nul := by
          rw [hinput]
          exact hbare
        cases v with
        | nil =>
          -- an open quote at the end of the text is not read
          simp only [List.head?_nil, reduceCtorEq, if_false, if_true] at hread
          exact absurd (hvnil rfl) (by rw [(readParams_nil hread).1]; exact Bool.false_ne_true)
        | cons d v =>
          have hd : q.input.string q.index = d := hmid.ahead.reads.head
          have hds : d ≠ semicolon := fun h0 => hvs (by rw [h0]; exact List.mem_cons_self)
          rw [hd]
          split at hread
          next hcomma =>
            rw [if_neg (fun hc => hc.2.2 (Option.some.inj hcomma))]
            have hfin := ih hmid hqsub hvs hvn hread hcount hbare' hfuel'
            rw [hinput] at hfin
            exact { hfin with frame := hfin.frame.mono hle }
          next hcomma =>
            rw [if_neg (List.cons_ne_nil d v)] at hread
            rw [if_pos ⟨hmid.ahead.lt, hds, fun h0 => hcomma (by rw [h0]; rfl)⟩]
            have hlong : (d :: v).length ≤ q.input.length := by
              have hl := hmid.ahead.length
              rw [List.length_append] at hl
              omega
            split at hread
            next => cases hread
            next f hparam =>
              split at hread
              next => cases hread
              next hout =>
                cases hread
                obtain ⟨r, hr, hab, hfin, hend⟩ := param_open hmid (by simpa using hout) htail hvs hvn hparam hlong
                  (hbare' rfl)
                rw [hab, if_neg Bool.false_ne_true, hr]
                rw [hinput] at hfin
                have hfin' : Finished p.input p.index r tail (done ++ [f]) :=
                  { hfin with frame := hfin.frame.mono hle }
                rcases hend with hend | hend
                · rw [if_pos hend]
                  exact hfin'
                · rw [scanParams_stop hend (.inl rfl), ite_self]
                  exact hfin'
            next f e rest hparam =>
              obtain ⟨⟨ps', bare'⟩, hrest, hmap⟩ := Option.map_eq_some_iff.mp hread
              cases hmap
              obtain ⟨r, u, hr, hab, hin, hframe, hindex, hmid', hcases⟩ :=
                param_ended hmid hqsub htail hvs hvn hparam hlong
              rw [hab, if_neg Bool.false_ne_true, hr]
              rw [← hin] at hrest
              have hframe' : Frame p.input r.input p.index := by
                rw [← hinput]
                exact hframe.mono hle
              simp only at hcount ⊢
              rw [List.append_cons]
              rcases hcases with ⟨rfl, hsub'⟩ | ⟨hnil, htail', hstop⟩
              · rw [if_neg (by rw [hsub']; exact Bool.false_ne_true)]
                have hfin := ih hmid' hsub' (not_mem_behind hparam hvs) (not_mem_behind hparam hvn) hrest
                  (by rw [List.length_append, List.length_singleton]; rw [List.length_cons] at hcount; omega)
                  (fun hb ht => hframe.nul_behind (hbare' hb ht)) hfuel'
                exact { hfin with frame := hframe'.trans hfin.frame (hle.trans hindex) }
              · rw [hnil] at hrest
                exact hmid'.last hrest htail' hstop hframe'

end Qcc730.Qat

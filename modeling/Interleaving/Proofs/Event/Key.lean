import Interleaving.Event.Key
import Interleaving.Proofs.Sorting
import Interleaving.Proofs.Text.Numeral

/-!
# Keys are read back

The text of a key whose numbers are words is read as that key (`Interleaving.Key.parse?_text`), so
different keys have different texts (`Interleaving.Key.text_inj`). All keys of negative tasks are
written alike; only the first event's own key is read back. These keys are **sound**
(`Interleaving.Key.IsSound`), and no text is read as another one
(`Interleaving.Key.isSound_of_parse?`).

Sound keys are compared by a total order, so **whatever order they come in, they are written, read
and sorted alike** (`Interleaving.Key.read_and_ordered`).
-/

namespace Interleaving

namespace Text

/-- A digit is no white space. -/
theorem isBlank_of_isDigit {c : Char} (h : isDigit c = true) : isBlank c = false := by
  have hrange : 48 ≤ c.toNat ∧ c.toNat ≤ 57 := by
    simp only [isDigit, Bool.and_eq_true, decide_eq_true_eq, Char.le_def,
      UInt32.le_iff_toNat_le] at h
    exact h
  simp only [isBlank, Bool.or_eq_false_iff, Bool.and_eq_false_iff, decide_eq_false_iff_not,
    beq_eq_false_iff_ne]
  omega

/-- What neither starts nor ends with white space is not trimmed. -/
theorem trim_of_ends {a b : Char} {cs : List Char} (ha : isBlank a = false)
    (hb : isBlank b = false) : trim (a :: (cs ++ [b])) = a :: (cs ++ [b]) := by
  have hleft : trimLeft (a :: (cs ++ [b])) = a :: (cs ++ [b]) :=
    List.dropWhile_cons_of_neg (by simp [ha])
  have hreverse : (a :: (cs ++ [b])).reverse = b :: (cs.reverse ++ [a]) := by simp
  rw [trim, hleft, trimRight, hreverse, List.dropWhile_cons_of_neg (by simp [hb]), ← hreverse,
    List.reverse_reverse]

/-- What has no white space is not trimmed. -/
theorem trim_of_forall {cs : List Char} (h : ∀ c ∈ cs, isBlank c = false) : trim cs = cs := by
  have hdrop : ∀ ds : List Char, (∀ c ∈ ds, isBlank c = false) → ds.dropWhile isBlank = ds := by
    intro ds hds
    cases ds with
    | nil => rfl
    | cons d ds => exact List.dropWhile_cons_of_neg (by simp [hds d List.mem_cons_self])
  rw [trim, trimLeft, hdrop cs h, trimRight,
    hdrop cs.reverse fun c hc => h c (List.mem_reverse.mp hc), List.reverse_reverse]

theorem trim_toDigits (n : Nat) : trim (Nat.toDigits 10 n) = Nat.toDigits 10 n :=
  trim_of_forall fun _ hc => isBlank_of_isDigit (isDigit_of_mem_toDigits hc)

end Text

namespace Key

variable {k l m : Key} {ks : List Key}

/-- What has no comma is one part. -/
theorem splitCommas_of_not_mem {cs : List Char} (h : ',' ∉ cs) : splitCommas cs = [cs] := by
  induction cs with
  | nil => rfl
  | cons c cs ih =>
    obtain ⟨hc, hcs⟩ := not_or.mp fun hor => h (List.mem_cons.mpr hor)
    have hrest : splitCommas cs = [cs] := ih hcs
    rw [splitCommas, List.foldr_cons, ← splitCommas, hrest]
    exact if_neg (Ne.symm hc)

theorem splitCommas_append {cs ds : List Char} (hcs : ',' ∉ cs) (hds : ',' ∉ ds) :
    splitCommas (cs ++ ',' :: ds) = [cs, ds] := by
  induction cs with
  | nil =>
    rw [List.nil_append, splitCommas, List.foldr_cons, ← splitCommas, splitCommas_of_not_mem hds]
    rfl
  | cons c cs ih =>
    obtain ⟨hc, hcs⟩ := not_or.mp fun hor => hcs (List.mem_cons.mpr hor)
    rw [List.cons_append, splitCommas, List.foldr_cons, ← splitCommas, ih hcs]
    exact if_neg (Ne.symm hc)

/-- A key that can be read back: the first event's own, or one of two words that are not
negative. -/
inductive IsSound : Key → Prop
  | init : IsSound .init
  | place {task seq : Nat} (htask : Word.fits task = true) (hseq : Word.fits seq = true) :
      IsSound ⟨task, seq⟩

theorem component?_toDigits {n : Nat} (h : Word.fits n = true) :
    component? (Nat.toDigits 10 n) = some (n : Int) := by
  have hread : Text.decimal? (Nat.toDigits 10 n) = some (n : Int) := by
    rw [Text.decimal?, Text.integer?_toDigits]
    simp [Option.filter, h]
  rw [component?, hread]
  simp [Option.filter]

theorem comma_not_mem_toDigits (n : Nat) : ',' ∉ Nat.toDigits 10 n :=
  fun h => absurd (Text.isDigit_of_mem_toDigits h) (by decide)

/-- **A key is read back.** -/
theorem parse?_text (h : k.IsSound) : parse? k.text = .ok k := by
  cases h with
  | init => decide
  | @place task seq htask hseq =>
    have hinit : isInit ⟨task, seq⟩ = false := by simp [isInit]
    have hnumeral : ∀ n : Nat, (Text.decimal n).toList = Nat.toDigits 10 n := fun n => by
      rw [Text.toList_decimal, if_neg (by omega), Int.natAbs_natCast]
    have htext : (text ⟨task, seq⟩).toList =
        '\x7b' :: ((Nat.toDigits 10 task ++ ',' :: ' ' :: Nat.toDigits 10 seq) ++ ['\x7d']) := by
      rw [text, hinit]
      simp [hnumeral]
    have hinner :
        inner? ('\x7b' ::
          ((Nat.toDigits 10 task ++ ',' :: ' ' :: Nat.toDigits 10 seq) ++ ['\x7d'])) =
        some (Nat.toDigits 10 task ++ ',' :: ' ' :: Nat.toDigits 10 seq) := by
      rw [inner?, List.getLast?_concat, if_pos rfl, List.dropLast_concat]
    have hsplit : splitCommas (Nat.toDigits 10 task ++ ',' :: ' ' :: Nat.toDigits 10 seq) =
        [Nat.toDigits 10 task, ' ' :: Nat.toDigits 10 seq] :=
      splitCommas_append (comma_not_mem_toDigits task) fun hmem =>
        (List.mem_cons.mp hmem).elim (by decide) (comma_not_mem_toDigits seq)
    have hblank : Text.trim (' ' :: Nat.toDigits 10 seq) = Nat.toDigits 10 seq :=
      Text.trim_toDigits seq
    have hnull : ¬(Nat.toDigits 10 task = "null".toList ∧ Nat.toDigits 10 seq = "null".toList) := by
      rintro ⟨heq, -⟩
      have hmem : 'n' ∈ Nat.toDigits 10 task := by
        rw [heq]
        decide
      exact absurd (Text.isDigit_of_mem_toDigits hmem) (by decide)
    rw [parse?, htext, Text.trim_of_ends (by decide) (by decide), hinner]
    simp only [hsplit, Text.trim_toDigits, hblank, if_neg hnull, component?_toDigits htask,
      component?_toDigits hseq]

/-- **Different keys have different texts.** -/
theorem text_inj {k k' : Key} (h : k.IsSound) (h' : k'.IsSound) : k.text = k'.text ↔ k = k' := by
  refine ⟨fun heq => ?_, congrArg text⟩
  have hread := parse?_text h
  rw [heq, parse?_text h', Except.ok.injEq] at hread
  exact hread.symm

/-! ### What is read is sound -/

/-- A component that is read is a word, and not negative. -/
theorem exists_of_component? {cs : List Char} {n : Int} (h : component? cs = some n) :
    ∃ i : Nat, n = i ∧ Word.fits i = true := by
  obtain ⟨hread, hnonneg⟩ := Option.filter_eq_some_iff.mp h
  obtain ⟨-, hfits⟩ := Option.filter_eq_some_iff.mp hread
  obtain ⟨i, rfl⟩ := Int.eq_ofNat_of_zero_le (of_decide_eq_true hnonneg)
  exact ⟨i, rfl, hfits⟩

/-- **A key that is read, from whatever text, is sound.** -/
theorem isSound_of_parse? {s : String} (h : parse? s = .ok k) : k.IsSound := by
  unfold parse? at h
  split at h
  · cases h
  · split at h
    · dsimp only at h
      split at h
      · obtain rfl := Except.ok.inj h
        exact .init
      · split at h
        · cases h
        · rename_i task htask
          split at h
          · cases h
          · rename_i seq hseq
            obtain rfl := Except.ok.inj h
            obtain ⟨i, rfl, hi⟩ := exists_of_component? htask
            obtain ⟨j, rfl, hj⟩ := exists_of_component? hseq
            exact .place hi hj
    · cases h

/-! ### The order of sound keys -/

/-- A sound key other than the first event's belongs to a task. -/
theorem IsSound.named (h : k.IsSound) : k.Named := by
  intro hinit
  cases h with
  | init => rfl
  | @place task seq =>
    have hneg : (task : Int) < 0 := of_decide_eq_true hinit
    omega

/-- The two ways around, a comparison gives opposite answers. -/
theorem compare_swap (k l : Key) : (k.compare l).swap = l.compare k := by
  unfold compare
  simp only [isInit, Bool.and_eq_true, decide_eq_true_eq]
  split_ifs <;> first | rfl | omega

theorem compare_self (k : Key) : k.compare k = .eq := by
  cases h : k.isInit <;> simp [compare, h]

theorem compare_eq_iff (hk : k.IsSound) (hl : l.IsSound) : k.compare l = .eq ↔ k = l := by
  constructor
  · intro h
    have hswap : l.compare k = .eq := by
      rw [← compare_swap, h]
      rfl
    exact hk.named.antisymm hl.named (by rw [h]; rfl) (by rw [hswap]; rfl)
  · rintro rfl
    exact compare_self k

/-- The first event's key comes before all others. -/
theorem init_compare (hk : k.IsSound) (hne : k ≠ .init) : init.compare k = .lt := by
  have hplace : k.isInit = false := Bool.eq_false_iff.mpr fun hinit => hne (hk.named hinit)
  have hinit : init.isInit = true := rfl
  simp [compare, hplace, hinit]

/-- However a list of sound keys has been put in increasing order, it is `sort` of the list. -/
theorem eq_sort_of_perm {ls : List Key} (hks : ∀ x ∈ ks, x.IsSound) (hperm : ls.Perm ks)
    (hsorted : ls.Pairwise fun x y => x.compare y ≠ .gt) : ls = sort ks := by
  refine eq_of_sorted (hsorted.imp bne_iff_ne.mpr) (pairwise_sort ks)
    (hperm.trans (sort_perm ks).symm) ?_
  exact fun x hx => (hks x (hperm.mem_iff.mp hx)).named

/-- **Keys are written, read and sorted faithfully.** A sound key is read back from its text, and
only sound keys are read; different ones have different texts. Comparing orders them totally, with
the first event's key first, so sorting leaves nothing to the order in which they come: there is one
list of the same keys in increasing order. -/
theorem read_and_ordered (hk : k.IsSound) (hl : l.IsSound) (hks : ∀ x ∈ ks, x.IsSound) :
    parse? k.text = .ok k ∧ (∀ s x, parse? s = .ok x → x.IsSound) ∧ (k.text = l.text ↔ k = l) ∧
    ((k.compare l).swap = l.compare k ∧
      (k.compare l ≠ .gt → l.compare m ≠ .gt → k.compare m ≠ .gt) ∧
      (k.compare l = .eq ↔ k = l) ∧ (k ≠ .init → init.compare k = .lt)) ∧
    (sort ks).Perm ks ∧ (sort ks).Pairwise (fun x y => x.compare y ≠ .gt) ∧
    ∀ ls : List Key, ls.Perm ks → sort ls = sort ks ∧
      (ls.Pairwise (fun x y => x.compare y ≠ .gt) → ls = sort ks) := by
  refine ⟨parse?_text hk, fun s x => isSound_of_parse?, text_inj hk hl,
    ⟨compare_swap k l, ?_, compare_eq_iff hk hl, init_compare hk⟩,
    sort_perm ks, (pairwise_sort ks).imp bne_iff_ne.mp,
    fun ls hperm => ⟨?_, eq_sort_of_perm hks hperm⟩⟩
  · simp only [← bne_iff_ne]
    exact compare_trans
  · exact sort_eq_of_perm hperm fun x hx => (hks x (hperm.mem_iff.mp hx)).named

/-- Keys of two tasks and the first event's, the last one as far as words go. -/
def mixedKeys : List Key := [⟨1, 0⟩, ⟨0, Word.greatest⟩, .init, ⟨0, 2⟩]

theorem read_and_ordered_mixedKeys : (∀ x ∈ mixedKeys, x.IsSound) ∧
    parse? (text ⟨0, Word.greatest⟩) = .ok ⟨0, Word.greatest⟩ ∧
    sort mixedKeys.reverse = [.init, ⟨0, 2⟩, ⟨0, Word.greatest⟩, ⟨1, 0⟩] := by
  have hsound : ∀ x ∈ mixedKeys, x.IsSound := by
    simp only [mixedKeys, List.forall_mem_cons, List.not_mem_nil, false_implies,
      implies_true, and_true]
    have hplace : ∀ task seq : Nat, Word.fits task = true → Word.fits seq = true →
        IsSound ⟨task, seq⟩ :=
      fun _ _ => .place
    exact ⟨hplace 1 0 (by decide) (by decide),
      hplace 0 9223372036854775807 (by decide) (by decide), .init,
      hplace 0 2 (by decide) (by decide)⟩
  obtain ⟨hread, -, -, -, -, -, hsort⟩ :=
    read_and_ordered (m := .init) (hsound ⟨0, Word.greatest⟩ (by decide)) .init hsound
  exact ⟨hsound, hread, (hsort _ (List.reverse_perm _)).1.trans (by decide)⟩

end Key

end Interleaving

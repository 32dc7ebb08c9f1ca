import CordRs.Btree.NavigatorRead
import CordRs.Rep.Reader

/-!
# Reading a tree at a reader

A read of a reader takes bytes from the last `chunkSize` bytes of the data edge the reader is on, or
from the next data edge if `chunkSize` is zero, and returns the rest of the data edge it ended in.

Reads go wrong in four ways. The end of the range is computed as a machine integer, which may wrap. A
reader on the last data edge that is told to read from the next one stays there, and reads the last
one again. A seek beyond the end leaves the reader where it is but counts no bytes behind it, so a
read then ends early. And after a read to the end the reader is on no data edge. A read gives what
it should exactly if the reader `Serves` it, and in a run of moves and such reads the reader is
always where its last move or read ended.

## Main definitions

* `CordRs.BtreeReader.read`.
* `CordRs.ReadsPart`, `CordRs.Navigator.Reads`: what a read of a range gives.
* `CordRs.BtreeReader.Continues`: the reader is at a byte of the tree.
* `CordRs.BtreeReader.Serves`, `CordRs.BtreeReader.Run`: runs of moves and reads.

## Main results

* `CordRs.BtreeReader.wp_read`, `CordRs.BtreeReader.wp_read_iff`: where a read of a reader leads, and
  when.
* `CordRs.BtreeReader.read_continues`: what reads give, and where runs lead.
-/

namespace CordRs

open RefHeap

section Target

variable [Target]

namespace BtreeReader

/-- The data edge a read starts in, and where. There is none after the last one, where the position
stays as it is. -/
def readStart (r : BtreeReader) (chunkSize : ℕ) : Except Fault (Navigator × Option Edge × ℕ) := do
  if chunkSize ≠ 0 then
    let edge ← r.navigator.current
    pure (r.navigator, some edge, edge.length - chunkSize)
  else
    let (navigator, edge) ← r.navigator.next
    pure (navigator, edge, 0)

/-- Read `n` bytes, the first of them from the last `chunkSize` bytes of the last edge. Returns the
rest of the edge the read ended in and the tree, none beyond the end. -/
def read (r : BtreeReader) (n chunkSize : ℕ) : HeapM (BtreeReader × Bytes × Option Addr) := do
  let (navigator, edge, offset) ← liftM (r.readStart chunkSize)
  let (navigator, result) ← navigator.read offset n
  if n < chunkSize then
    match edge with
    | some edge => pure (⟨r.remaining, navigator⟩, edge.data.drop result.n, result.tree)
    | none => throw .unreachable
  else
    let consumedByRead := n - chunkSize - result.n
    if r.remaining ≤ consumedByRead then
      pure (⟨0, navigator⟩, [], result.tree)
    else
      let edge ← liftM navigator.current
      pure (⟨r.remaining - (consumedByRead + edge.length), navigator⟩, edge.data.drop result.n,
        result.tree)

end BtreeReader

end Target

/-! ### What a read gives -/

section Rules

variable [Target] {h h' : Heap Node} {Z : List Addr} {R : Multiset Addr} {t : Rep} {k p n : ℕ}

/-- What a read of `n` bytes of a tree from byte `p` on gives. Beyond the end it gives nothing, and
every cell it allocated is released. Otherwise it gives a new tree with the bytes of the part. -/
structure ReadsPart (t : Rep) (k p n : ℕ) (h : Heap Node) (Z : List Addr) (R : Multiset Addr)
    (tree : Option Addr) (h' : Heap Node) : Prop where
  none_iff : tree = none ↔ t.length < p + n
  released : tree = none → Owned h' Z R ∧
    ∀ a m, a ∉ Z → h'.node? a = some m → h.node? a = some m
  part : ∀ a, tree = some a → ∃ (u : Rep) (j : ℕ), a = u.addr ∧ Owned h' Z (u.addr ::ₘ R) ∧
    u.Held h' ∧ u.Valid j ∧ j ≤ k ∧ Extracts t.leaves p n u.leaves ∧
    wp (subTree t.addr p n) (fun s h₁ ↦ ∃ v : Rep, s = some v.addr ∧ v.Held h₁ ∧
      v.bytes = u.bytes) h
  frame : Frame Z R h h'

/-- What a read of `n` bytes from byte `off` of the edge at the position gives: the part from there
on, and the position of the byte behind it. -/
structure Navigator.Reads (nav : Navigator) (t : Rep) (k off n : ℕ) (h : Heap Node) (Z : List Addr)
    (R : Multiset Addr) (nav' : Navigator) (result : ReadResult) (h' : Heap Node) : Prop where
  part : ReadsPart t k (edgesLength nav.before + off) n h Z R result.tree h'
  moved : edgesLength nav.before + off + n < t.length → ∃ e, nav'.At t e ∧ result.n < e.length ∧
    edgesLength nav'.before + result.n = edgesLength nav.before + off + n

/-- What is live after nothing was kept was live before. -/
private theorem node?_of_released (ho : Owned h' Z R) (hf : Frame Z R h h') {a : Addr} {m : Node}
    (haZ : a ∉ Z) (ha : h'.node? a = some m) : h.node? a = some m := by
  rw [← hf.kept a (hf.reach (ho.reach_of_live haZ ha)), ha]

/-- Beyond the end. -/
private theorem ReadsPart.beyond (hlt : t.length < p + n) (ho : Owned h' Z R)
    (hf : Frame Z R h h') : ReadsPart t k p n h Z R none h' where
  none_iff := iff_of_true rfl hlt
  released _ := ⟨ho, fun _ _ haZ ha ↦ node?_of_released ho hf haZ ha⟩
  part _ ha := by cases ha
  frame := hf

/-- Within the tree. -/
private theorem ReadsPart.within {u : Rep} {j : ℕ} (hle : p + n ≤ t.length) (hn : 0 < n)
    (ho : Owned h Z R) (hr : Reach h R t.addr) (ht : t.Held h) (hv : t.Valid (k + 1))
    (hk : k + 1 ≤ maxDepth) (hj : j ≤ k + 1) (hu : Copied h h' Z R j (pieces t.leaves p n) u) :
    ReadsPart t (k + 1) p n h Z R (some u.addr) h' where
  none_iff := iff_of_false (by simp) (by omega)
  released ha := by cases ha
  part a ha := by
    obtain rfl := Option.some.inj ha
    have hext := hu.cuts.extracts hv.leaves_valid hn (hv.length_leaves.symm ▸ hle)
    refine ⟨u, j, rfl, hu.owned, hu.held, hu.valid, hj, hext, ?_⟩
    refine wp_subTree ho hr ht hv (by omega) hn hle fun v i h₁ _ _ hc ↦ ⟨v, rfl, hc.held, ?_⟩
    rw [Rep.bytes, Rep.bytes, hext.data, hc.cuts.data hv.leaves_valid]
  frame := hu.frame

/-! ### Reads of a navigator -/

namespace Navigator

variable {nav : Navigator} {e : Edge} {off : ℕ}

/-- A read whose end does not wrap gives the part of the tree and moves behind it. -/
private theorem reads_of_le (ha : nav.At t e) (ho : Owned h Z R) (hr : Reach h R t.addr)
    (ht : t.Held h) (hv : t.Valid (k + 1)) (hk : k + 1 ≤ maxDepth) (hlen : t.length ≤ usizeMax)
    (hoff : off < e.length) (hn : 0 < n) (hadd : off + n ≤ usizeMax) :
    wp (nav.read off n) (fun q h' ↦ nav.Reads t (k + 1) off n h Z R q.1 q.2 h') h := by
  refine wp_read ha ho hr ht hv hk hlen hoff hn hadd ?_ ?_ ?_
  · intro hlt h' ho' hf
    exact ⟨.beyond hlt ho' hf, fun hgt ↦ absurd hgt (by omega)⟩
  · intro heq u j h' hj hu
    exact ⟨.within heq.le hn ho hr ht hv hk hj hu, fun hgt ↦ absurd hgt (by omega)⟩
  · intro hlt nav' e' m u j h' hj ha' _ hm hpos hu
    exact ⟨.within hlt.le hn ho hr ht hv hk hj hu, fun _ ↦ ⟨e', ha', hm, hpos⟩⟩

/-- A read whose end wraps finds bytes beyond the end of the tree. -/
private theorem some_of_wrapped (ha : nav.At t e) (hv : t.Valid (k + 1))
    (hlen : t.length ≤ usizeMax) (hoff : off < e.length) (hn : 0 < n) (hle : n ≤ usizeMax)
    (hadd : usizeMax < off + n) {Q : Navigator × ReadResult → Heap Node → Prop}
    (hwp : wp (nav.read off n) Q h) : ∃ q h', Q q h' ∧ q.2.tree ≠ none := by
  have hele : e.length ≤ t.length := by
    rw [← hv.length_leaves, ha.leaves_eq, edgesLength_append, edgesLength_cons]
    omega
  have hwrap : addUsize off n < off := by
    rw [addUsize_eq_sub hadd (by omega)]
    omega
  have hpath := ha.path_ne_nil hv
  obtain ⟨path⟩ := nav
  cases path with
  | nil => exact absurd rfl hpath
  | cons l up =>
    rw [Navigator.read] at hwp
    simp only [wp_bind, wp_liftM] at hwp
    obtain ⟨s, hs, b, hb, hwp⟩ := hwp
    rw [ha.1.1.edge] at hs
    cases hs
    cases hb
    rw [if_pos (hwrap.trans hoff), if_neg hn.ne'] at hwp
    simp only [wp_bind, wp_pure] at hwp
    obtain ⟨a, h', -, hQ⟩ := hwp
    exact ⟨_, h', hQ, by simp⟩

private theorem not_reads_of_lt (ha : nav.At t e) (hv : t.Valid (k + 1))
    (hlen : t.length ≤ usizeMax) (hoff : off < e.length) (hn : 0 < n) (hle : n ≤ usizeMax)
    (hadd : usizeMax < off + n) :
    ¬wp (nav.read off n) (fun q h' ↦ nav.Reads t (k + 1) off n h Z R q.1 q.2 h') h := by
  intro hwp
  obtain ⟨q, h', hreads, hsome⟩ := some_of_wrapped ha hv hlen hoff hn hle hadd hwp
  have hele : e.length ≤ t.length := by
    rw [← hv.length_leaves, ha.leaves_eq, edgesLength_append, edgesLength_cons]
    omega
  exact hsome (hreads.part.none_iff.mpr (by omega))

omit [Target] in
/-- An entry that ran out has no edge. -/
private theorem edge_of_end_le {l : Level} (hle : l.end ≤ l.index) : l.edge = .error .window := by
  rw [Level.end] at hle
  rw [Level.edge, if_pos (by omega), List.getElem?_eq_none (by omega)]

theorem At.not_current_ended (ha : nav.At t e) (hv : t.Valid (k + 1)) {e' : Edge} :
    nav.ended.current ≠ .ok e' := by
  obtain ⟨l, up, hp⟩ := List.exists_cons_of_ne_nil (ha.path_ne_nil hv)
  rw [current, ended, hp, List.map_cons]
  dsimp only
  rw [edge_of_end_le (le_refl l.end)]
  rintro ⟨⟩

theorem At.not_next_ended (ha : nav.At t e) (hv : t.Valid (k + 1))
    {q : Navigator × Option Edge} : nav.ended.next ≠ .ok q := by
  obtain ⟨l, up, hp⟩ := List.exists_cons_of_ne_nil (ha.path_ne_nil hv)
  have hlink := ha.1
  rw [hp] at hlink
  have hlen : 0 < l.edges.length := List.length_pos_of_mem hlink.1.mem
  have hback : ¬l.ended.index = l.ended.back := by
    simp only [Level.ended, Level.back, Level.end]
    omega
  have hedge : Level.edge { l.ended with index := l.ended.index + 1 } = .error .window :=
    edge_of_end_le (Nat.le_succ l.end)
  rw [next, ended, hp, List.map_cons]
  dsimp only
  rw [if_neg hback, hedge]
  rintro ⟨⟩

end Navigator

/-! ### Reads of a reader -/

namespace BtreeReader

variable {r : BtreeReader} {chunk : Bytes} {c m : ℕ} {e : Edge}

/-- The reader returned the rest of the data edge that holds byte `p`, nothing at the end, and counts
the bytes after it. -/
structure Continues (r : BtreeReader) (t : Rep) (p : ℕ) (chunk : Bytes) : Prop where
  ended : t.length ≤ p → chunk = [] ∧ r.remaining = 0
  on : p < t.length → ∃ as e bs m, t.leaves = as ++ e :: bs ∧ m < e.length ∧
    edgesLength as + m = p ∧ chunk = e.data.drop m ∧ r.remaining = edgesLength bs

omit [Target] in
/-- The byte a read starts at whose first `c` bytes are the last ones of the current data edge. -/
def readFrom (r : BtreeReader) (c : ℕ) : ℕ :=
  edgesLength r.navigator.before +
    match r.navigator.current with
    | .ok e => e.length - c
    | .error _ => 0

/-- The reads of `n` bytes, the first `c` of them from the current data edge, that give what they
should: the reader is on a data edge, the end of the range does not wrap, a last data edge that is
read again has less than `n` bytes, and the bytes behind the current data edge are counted unless
the read is to the end. -/
structure Serves (r : BtreeReader) (t : Rep) (n c : ℕ) : Prop where
  current : ∃ e, r.navigator.current = .ok e
  fits : c ≠ 0 → ∀ e, r.navigator.current = .ok e → e.length - c + n ≤ usizeMax
  last : c = 0 → r.navigator.after = [] → ∀ e, r.navigator.current = .ok e → e.length < n
  counted : t.length ≤ r.readFrom c + n ∨ r.remaining = edgesLength r.navigator.after

/-- What holds between the calls of a reader: it is on a data edge and counts the bytes after it, or
none; or a read led it behind the last data edge. -/
def Tracks (r : BtreeReader) (t : Rep) : Prop :=
  r.Of t ∧ ((∃ e, r.navigator.At t e ∧
    (r.remaining = 0 ∨ r.remaining = edgesLength r.navigator.after)) ∨
      (∃ (nav : Navigator) (e : Edge), nav.At t e ∧ r.navigator = nav.ended) ∧ r.remaining = 0)

theorem On.tracks (hr : r.On t e) (hv : t.Valid (k + 1)) : r.Tracks t :=
  ⟨hr.of hv, .inl ⟨e, hr.1, .inr hr.2⟩⟩

/-- A reader that counts bytes is on a data edge. -/
theorem Tracks.exists_on (hr : r.Tracks t) (hrem : r.remaining ≠ 0) : ∃ e, r.On t e := by
  obtain ⟨-, ⟨e, hat, h0 | hcount⟩ | ⟨-, h0⟩⟩ := hr
  · exact absurd h0 hrem
  · exact ⟨e, hat, hcount⟩
  · exact absurd h0 hrem

private theorem On.continues (hr : r.On t e) (hv : t.Valid (k + 1)) (hm : m < e.length)
    (hp : edgesLength r.navigator.before + m = p) : r.Continues t p (e.data.drop m) := by
  have hlen := hr.length_eq hv
  exact ⟨fun hle ↦ absurd hle (by omega), fun _ ↦ ⟨_, e, _, m, hr.1.leaves_eq, hm, hp, rfl, hr.2⟩⟩

omit [Target] in
private theorem continues_nil {nav : Navigator} (hle : t.length ≤ p) :
    Continues ⟨0, nav⟩ t p [] :=
  ⟨fun _ ↦ ⟨rfl, rfl⟩, fun hlt ↦ absurd hlt (by omega)⟩

theorem init_continues (hv : t.Valid (k + 1)) (hk : k ≤ maxHeight) :
    ∃ r chunk, init t = .ok (r, chunk) ∧ r.Tracks t ∧ r.Continues t 0 chunk := by
  obtain ⟨r, e, hrun, hr, hbefore⟩ := init_spec hv hk
  exact ⟨r, e.data, hrun, hr.tracks hv,
    hr.continues hv (m := 0) hr.edge_valid.length_pos (by simp [hbefore])⟩

/-- The next chunk starts behind the last one. -/
theorem next_continues (hr : r.Tracks t) (hv : t.Valid (k + 1)) :
    ∃ r' chunk', r.next = .ok (r', chunk') ∧ r'.Tracks t ∧
      r'.Continues t (t.length - r.remaining) chunk' := by
  by_cases hrem : r.remaining = 0
  · refine ⟨r, [], by rw [next, if_pos hrem]; rfl, hr, ?_⟩
    obtain ⟨remaining, nav⟩ := r
    obtain rfl : remaining = 0 := hrem
    exact continues_nil le_rfl
  · obtain ⟨e, hon⟩ := hr.exists_on hrem
    have hlen := hon.length_eq hv
    obtain ⟨hnil, -⟩ | ⟨r', e', hrun, hon', hbefore, -⟩ := next_spec hon hv
    · exact absurd (by rw [hon.2, hnil]; rfl) hrem
    · exact ⟨r', e'.data, hrun, hon'.tracks hv,
        hon'.continues hv (m := 0) hon'.edge_valid.length_pos (by rw [hbefore]; simp; omega)⟩

/-- Seeking leads to the byte, from wherever the reader is. -/
theorem seek_continues (offset : ℕ) (hr : r.Tracks t) (hv : t.Valid (k + 1)) :
    ∃ r' chunk', r.seek offset = .ok (r', chunk') ∧ r'.Tracks t ∧
      r'.Continues t offset chunk' := by
  by_cases hlt : offset < t.length
  · obtain ⟨r', e, m, hrun, hon, hm, hp⟩ := seek_spec hr.1 hv hlt
    exact ⟨r', _, hrun, hon.tracks hv, hon.continues hv hm hp⟩
  · obtain ⟨-, hrun⟩ | ⟨nav, e, m, -, hat, -, hm, hp⟩ :=
      Navigator.seek_spec offset hr.1.1 hr.1.2
    · refine ⟨⟨0, r.navigator⟩, [], by rw [seek, hrun]; rfl, ⟨hr.1, ?_⟩,
        continues_nil (Nat.le_of_not_lt hlt)⟩
      obtain ⟨-, ⟨e, hat, -⟩ | ⟨hended, -⟩⟩ := hr
      · exact .inl ⟨e, hat, .inl rfl⟩
      · exact .inr ⟨hended, rfl⟩
    · have hlen := hv.length_leaves
      rw [hat.leaves_eq, edgesLength_append, edgesLength_cons] at hlen
      omega

/-! ### The data edge a read ends in -/

omit [Target] in
/-- A byte is in one data edge only. -/
theorem edges_unique {as bs cs ds : List Edge} {e' : Edge} {m' : ℕ}
    (hsplit : as ++ e :: bs = cs ++ e' :: ds) (hm : m < e.length) (hm' : m' < e'.length)
    (hp : edgesLength as + m = edgesLength cs + m') : as = cs ∧ e = e' ∧ bs = ds := by
  obtain ⟨xs, rfl, htail⟩ | ⟨xs, rfl, htail⟩ := List.append_eq_append_iff.mp hsplit
  · cases xs with
    | nil => simpa using htail
    | cons x xs =>
      obtain ⟨rfl, -⟩ := List.cons.inj htail
      rw [edgesLength_append, edgesLength_cons] at hp
      omega
  · cases xs with
    | nil => simpa [eq_comm] using htail
    | cons x xs =>
      obtain ⟨rfl, -⟩ := List.cons.inj htail
      rw [edgesLength_append, edgesLength_cons] at hp
      omega

omit [Target] in
/-- The data edge that holds a byte behind a cut between edges is behind the cut. -/
private theorem edgesLength_le_of_cut {as bs cs ds : List Edge}
    (hsplit : as ++ bs = cs ++ e :: ds) (hm : m < e.length)
    (hle : edgesLength as ≤ edgesLength cs + m) : edgesLength as ≤ edgesLength cs := by
  obtain ⟨xs, rfl, -⟩ | ⟨xs, rfl, htail⟩ := List.append_eq_append_iff.mp hsplit
  · rw [edgesLength_append]
    omega
  · cases xs with
    | nil => simp
    | cons x xs =>
      obtain ⟨rfl, -⟩ := List.cons.inj htail
      rw [edgesLength_append, edgesLength_cons] at hle
      omega

theorem readFrom_of_at (hat : r.navigator.At t e) (hv : t.Valid (k + 1)) (c : ℕ) :
    r.readFrom c = edgesLength r.navigator.before + (e.length - c) := by
  rw [readFrom, Navigator.current_spec hat hv]

/-- Where a read starts: `c` bytes before the end of the current data edge, which is in the next one
if `c` is zero. -/
private theorem readStart_spec (hat : r.navigator.At t e) (hv : t.Valid (k + 1)) (hc : c ≤ e.length)
    (hnext : c = 0 → r.navigator.after ≠ []) :
    ∃ nav e' off, r.readStart c = .ok (nav, some e', off) ∧ nav.At t e' ∧ off < e'.length ∧
      (c ≠ 0 → e' = e ∧ off + c = e.length ∧ nav = r.navigator) ∧ (c = 0 → off = 0) ∧
      r.readFrom c = edgesLength nav.before + off ∧
      ∃ as bs, t.leaves = as ++ bs ∧ edgesLength as = edgesLength nav.before + off + c ∧
        edgesLength bs = edgesLength r.navigator.after := by
  rw [readFrom_of_at hat hv]
  by_cases hc0 : c = 0
  · obtain ⟨hnil, -⟩ | ⟨nav, e', hrun, hat', hbefore, hafter⟩ := Navigator.next_spec hat hv
    · exact absurd hnil (hnext hc0)
    · refine ⟨nav, e', 0, ?_, hat', (hv.leaves_valid e' (by rw [hat'.leaves_eq]; simp)).length_pos,
        absurd hc0, fun _ ↦ rfl, ?_, nav.before, e' :: nav.after, hat'.leaves_eq, ?_, ?_⟩
      · rw [readStart, if_neg (by simpa using hc0), hrun]
        rfl
      · rw [hbefore, hc0]
        simp
      · omega
      · rw [hafter]
  · refine ⟨r.navigator, e, e.length - c, ?_, hat, by omega, fun _ ↦ ⟨rfl, by omega, rfl⟩,
      fun h ↦ absurd h hc0, rfl, r.navigator.before ++ [e], r.navigator.after, ?_, ?_, rfl⟩
    · rw [readStart, if_pos hc0, Navigator.current_spec hat hv]
      rfl
    · rw [hat.leaves_eq, List.append_assoc, List.singleton_append]
    · simp only [edgesLength_append, edgesLength_cons, edgesLength_nil]
      omega

/-- At the last data edge there is no next one, and a read starts in the last one again. -/
private theorem readStart_last (hat : r.navigator.At t e) (hv : t.Valid (k + 1))
    (hnil : r.navigator.after = []) : r.readStart 0 = .ok (r.navigator, none, 0) := by
  obtain ⟨-, hrun⟩ | ⟨nav, e', -, -, -, hafter⟩ := Navigator.next_spec hat hv
  · rw [readStart, if_neg (by simp), hrun]
    rfl
  · rw [hnil] at hafter
    cases hafter

/-- A read to the end of the tree leads behind the last data edge. -/
private theorem tracks_ended {nav : Navigator} (hat : nav.At t e) (hv : t.Valid (k + 1)) :
    Tracks ⟨0, nav.ended⟩ t := by
  refine ⟨⟨?_, ?_⟩, .inr ⟨⟨nav, e, hat, rfl⟩, rfl⟩⟩
  · rw [Navigator.btree_ended]
    exact hat.1.btree_eq (hat.path_ne_nil hv)
  · simpa [Navigator.ended] using hat.2

/-- A read that the reader serves gives the part that starts `c` bytes before the end of the current
data edge, and the reader is behind it. -/
theorem wp_read (hr : r.Tracks t) (hok : r.Serves t n c)
    (hc : ∀ e, r.navigator.current = .ok e → c ≤ e.length) (hn : 0 < n) (hle : n ≤ usizeMax)
    (ho : Owned h Z R) (hreach : Reach h R t.addr) (ht : t.Held h) (hv : t.Valid (k + 1))
    (hk : k + 1 ≤ maxDepth) (hlen : t.length ≤ usizeMax) :
    wp (r.read n c) (fun q h' ↦ q.1.Tracks t ∧ q.1.Continues t (r.readFrom c + n) q.2.1 ∧
      (r.readFrom c + n < t.length → ∃ e, q.1.On t e) ∧
      ReadsPart t (k + 1) (r.readFrom c) n h Z R q.2.2 h') h := by
  obtain ⟨e, hat, hcount⟩ : ∃ e, r.navigator.At t e ∧
      (r.remaining = 0 ∨ r.remaining = edgesLength r.navigator.after) := by
    obtain ⟨-, hon | ⟨⟨nav, e, hat, hended⟩, -⟩⟩ := hr
    · exact hon
    · obtain ⟨e', he'⟩ := hok.current
      exact absurd (hended ▸ he') (hat.not_current_ended hv)
  have hcur := Navigator.current_spec hat hv
  have hce := hc e hcur
  have htlen := hv.length_leaves
  rw [hat.leaves_eq, edgesLength_append, edgesLength_cons] at htlen
  rw [read]
  simp only [wp_bind, wp_liftM]
  by_cases hlast : c = 0 ∧ r.navigator.after = []
  · -- The last data edge is read again, and it is too short.
    obtain ⟨rfl, hnil⟩ := hlast
    have hshort := hok.last rfl hnil e hcur
    rw [hnil, edgesLength_nil] at hcount htlen
    have hfrom := readFrom_of_at hat hv 0
    have hepos := (hv.leaves_valid e (by rw [hat.leaves_eq]; simp)).length_pos
    refine ⟨_, readStart_last hat hv hnil, ?_⟩
    refine Navigator.wp_read hat ho hreach ht hv hk hlen hepos hn (by omega)
      (fun _ h' ho' hf ↦ ?_) (fun heq ↦ absurd heq (by omega)) fun hlt ↦ absurd hlt (by omega)
    rw [if_neg (Nat.not_lt_zero n), if_pos (by simp only []; omega), wp_pure]
    exact ⟨tracks_ended hat hv, continues_nil (by omega), fun hlt ↦ absurd hlt (by omega),
      .beyond (by omega) ho' hf⟩
  · obtain ⟨nav, e', off, hstart, hat', hoff, hsame, hzero, hfrom, as, bs, hsplit, has, hbs⟩ :=
      readStart_spec hat hv hce fun hc0 hnil ↦ hlast ⟨hc0, hnil⟩
    have hadd : off + n ≤ usizeMax := by
      by_cases hc0 : c = 0
      · rw [hzero hc0, Nat.zero_add]
        exact hle
      · have := hok.fits hc0 e hcur
        have := (hsame hc0).2.1
        omega
    have hsum : t.length = edgesLength nav.before + off + c + edgesLength r.navigator.after := by
      rw [← hv.length_leaves, hsplit, edgesLength_append]
      omega
    have hcounted := hok.counted
    rw [hfrom] at hcounted ⊢
    refine ⟨_, hstart, ?_⟩
    refine Navigator.wp_read hat' ho hreach ht hv hk hlen hoff hn hadd ?_ ?_ ?_
    · intro hlt h' ho' hf
      rw [if_neg (by omega), if_pos (by simp only []; omega), wp_pure]
      exact ⟨tracks_ended hat' hv, continues_nil hlt.le, fun hgt ↦ absurd hgt (by omega),
        .beyond hlt ho' hf⟩
    · intro heq u j h' hj hu
      rw [if_neg (by omega), if_pos (by simp only []; omega), wp_pure]
      exact ⟨tracks_ended hat' hv, continues_nil heq.ge, fun hgt ↦ absurd hgt (by omega),
        .within heq.le hn ho hreach ht hv hk hj hu⟩
    · intro hlt nav' e₁ m u j h' hj hat₁ _ hm hpos hu
      have hrem : r.remaining = edgesLength r.navigator.after :=
        hcounted.resolve_left (Nat.not_le.mpr hlt)
      have hpart := ReadsPart.within hlt.le hn ho hreach ht hv hk hj hu
      have hlen' := hv.length_leaves
      rw [hat₁.leaves_eq, edgesLength_append, edgesLength_cons] at hlen'
      by_cases hnc : n < c
      · -- The read ends in the edge it starts in.
        obtain ⟨rfl, hoffc, -⟩ := hsame (by omega)
        obtain ⟨hbefore, rfl, -⟩ := edges_unique (hat₁.leaves_eq.symm.trans hat'.leaves_eq) hm
          (show off + n < e'.length by omega) (by omega)
        rw [if_pos hnc, wp_pure]
        have hon : On ⟨r.remaining, nav'⟩ t e₁ := by
          refine ⟨hat₁, ?_⟩
          change r.remaining = edgesLength nav'.after
          rw [hbefore] at hlen'
          omega
        exact ⟨hon.tracks hv, hon.continues hv hm hpos, fun _ ↦ ⟨_, hon⟩, hpart⟩
      · have hbehind := edgesLength_le_of_cut (hsplit.symm.trans hat₁.leaves_eq) hm (by omega)
        rw [if_neg hnc, if_neg (by simp only []; omega)]
        simp only [wp_bind, wp_liftM, wp_pure]
        refine ⟨e₁, Navigator.current_spec hat₁ hv, ?_⟩
        have hon : On ⟨r.remaining - (n - c - m + e₁.length), nav'⟩ t e₁ := by
          refine ⟨hat₁, ?_⟩
          change r.remaining - (n - c - m + e₁.length) = edgesLength nav'.after
          omega
        exact ⟨hon.tracks hv, hon.continues hv hm hpos, fun _ ↦ ⟨_, hon⟩, hpart⟩

/-- A reader that returned the rest of the data edge that holds a byte is at the byte. -/
theorem Continues.on_edge (hcont : r.Continues t p chunk) (hon : r.On t e) (hv : t.Valid (k + 1))
    (hlt : p < t.length) :
    ∃ m, m < e.length ∧ chunk = e.data.drop m ∧ edgesLength r.navigator.before + m = p := by
  obtain ⟨as, e', bs, m, hsplit, hm, hp, rfl, hrem⟩ := hcont.on hlt
  -- Both edges end `remaining` bytes before the end of the tree.
  have hpos := hon.edge_valid.length_pos
  have hlen := hon.length_eq hv
  have hlen' := hv.length_leaves
  rw [hsplit, edgesLength_append, edgesLength_cons] at hlen'
  obtain ⟨hbefore, rfl, -⟩ := edges_unique (hon.1.leaves_eq.symm.trans hsplit)
    (show e.length - 1 < e.length by omega) (show e'.length - 1 < e'.length by omega) (by omega)
  exact ⟨m, hm, rfl, by rw [hbefore]; exact hp⟩

/-! ### Reads that go wrong -/

/-- The tree that a read returns is that of the read of the navigator. -/
private theorem wp_navigator_read {Q : BtreeReader × Bytes × Option Addr → Heap Node → Prop}
    (hwp : wp (r.read n c) Q h) : ∃ nav edge off, r.readStart c = .ok (nav, edge, off) ∧
      wp (nav.read off n) (fun q h' ↦ ∃ r' chunk, Q (r', chunk, q.2.tree) h') h := by
  rw [read] at hwp
  simp only [wp_bind, wp_liftM] at hwp
  obtain ⟨⟨nav, edge, off⟩, hstart, hwp⟩ := hwp
  refine ⟨nav, edge, off, hstart, wp_mono hwp ?_⟩
  rintro ⟨nav', result⟩ h' hq
  dsimp only at hq
  split_ifs at hq with hnc hrem
  · cases edge with
    | none =>
      obtain ⟨_, _, hfault, -⟩ := hq
      cases hfault
    | some edge => exact ⟨_, _, (wp_pure _ _ _).mp hq⟩
  · exact ⟨_, _, (wp_pure _ _ _).mp hq⟩
  · simp only [wp_bind, wp_liftM, wp_pure] at hq
    obtain ⟨_, -, hq⟩ := hq
    exact ⟨_, _, hq⟩

/-- A reader that counts no bytes counts none after a read, and returns none if the read went
beyond the bytes of the last chunk. -/
private theorem wp_read_uncounted {Q : BtreeReader × Bytes × Option Addr → Heap Node → Prop}
    (hrem : r.remaining = 0) (hwp : wp (r.read n c) Q h) :
    ∃ q h', Q q h' ∧ q.1.remaining = 0 ∧ (c ≤ n → q.2.1 = []) := by
  rw [read] at hwp
  simp only [wp_bind, wp_liftM] at hwp
  obtain ⟨⟨nav, edge, off⟩, -, ⟨nav', result⟩, h', -, hq⟩ := hwp
  dsimp only at hq
  rw [hrem, if_pos (Nat.zero_le _)] at hq
  split_ifs at hq with hnc
  · cases edge with
    | none =>
      obtain ⟨_, _, hfault, -⟩ := hq
      cases hfault
    | some edge => exact ⟨_, _, (wp_pure _ _ _).mp hq, rfl, fun hle ↦ absurd hle (by omega)⟩
  · exact ⟨_, _, (wp_pure _ _ _).mp hq, rfl, fun _ ↦ rfl⟩

/-- A read that gives what it should is one that the reader serves. -/
private theorem serves_of_wp (hr : r.Tracks t)
    (hc : ∀ e, r.navigator.current = .ok e → c ≤ e.length) (hn : 0 < n) (hle : n ≤ usizeMax)
    (ho : Owned h Z R) (hreach : Reach h R t.addr) (ht : t.Held h) (hv : t.Valid (k + 1))
    (hk : k + 1 ≤ maxDepth) (hlen : t.length ≤ usizeMax)
    (hwp : wp (r.read n c) (fun q h' ↦ q.1.Continues t (r.readFrom c + n) q.2.1 ∧
      ReadsPart t (k + 1) (r.readFrom c) n h Z R q.2.2 h') h) : r.Serves t n c := by
  obtain ⟨nav, edge, off, hstart, hnav⟩ := wp_navigator_read hwp
  obtain ⟨-, ⟨e, hat, hcount⟩ | ⟨⟨nav₀, e₀, hat₀, hended⟩, -⟩⟩ := hr
  · have hcur := Navigator.current_spec hat hv
    have hce := hc e hcur
    have hfrom := readFrom_of_at hat hv c
    have htlen := hv.length_leaves
    rw [hat.leaves_eq, edgesLength_append, edgesLength_cons] at htlen
    refine ⟨⟨e, hcur⟩, fun hc0 e' he' ↦ ?_, fun hc0 hnil e' he' ↦ ?_, ?_⟩
    · obtain rfl := Except.ok.inj (hcur.symm.trans he')
      rw [readStart, if_pos hc0, hcur] at hstart
      cases hstart
      by_contra hadd
      obtain ⟨q, h', ⟨_, _, -, hpart⟩, hsome⟩ :=
        Navigator.some_of_wrapped hat hv hlen (by omega) hn hle (Nat.lt_of_not_le hadd) hnav
      exact hsome (hpart.none_iff.mpr (by omega))
    · obtain rfl := Except.ok.inj (hcur.symm.trans he')
      obtain rfl := hc0
      rw [readStart_last hat hv hnil] at hstart
      cases hstart
      rw [hnil, edgesLength_nil] at htlen
      by_contra hshort
      have hepos := (hv.leaves_valid e (by rw [hat.leaves_eq]; simp)).length_pos
      have hreads := Navigator.reads_of_le hat ho hreach ht hv hk hlen hepos hn (by omega)
      obtain ⟨q, h', -, ⟨_, _, -, hpart⟩, hread⟩ := wp_and hnav hreads
      have := hread.part.none_iff.mp (hpart.none_iff.mpr (by omega))
      omega
    · rw [or_iff_not_imp_left, Nat.not_le]
      intro hlt
      by_contra hrem
      -- The read counts no bytes behind the edge that it ends in.
      obtain ⟨q, h', ⟨hcont, -⟩, hq0, hqnil⟩ := wp_read_uncounted (hcount.resolve_right hrem) hwp
      obtain ⟨as, e', bs, m, hsplit, hm, hp, hchunk, hbs⟩ := hcont.on hlt
      have hnc : n < c := by
        by_contra hnc
        have hnil := hqnil (Nat.le_of_not_lt hnc)
        rw [hchunk, List.drop_eq_nil_iff,
          (hv.leaves_valid e' (by rw [hsplit]; simp)).length_data] at hnil
        omega
      obtain ⟨-, -, rfl⟩ := edges_unique (hsplit.symm.trans hat.leaves_eq) hm
        (show e.length - c + n < e.length by omega) (by omega)
      exact hrem ((hcount.resolve_right hrem).trans (hq0.symm.trans hbs))
  · -- Behind the last data edge there is none to start in.
    exfalso
    rw [readStart, hended] at hstart
    split_ifs at hstart with hc0
    · obtain ⟨e, hcur, -⟩ := exists_of_bind_eq_ok hstart
      exact hat₀.not_current_ended hv hcur
    · obtain ⟨q, hnext, -⟩ := exists_of_bind_eq_ok hstart
      exact hat₀.not_next_ended hv hnext

/-- A read gives the part of the tree it should, and leads behind it, exactly if the reader serves
it. -/
theorem wp_read_iff (hr : r.Tracks t) (hc : ∀ e, r.navigator.current = .ok e → c ≤ e.length)
    (hn : 0 < n) (hle : n ≤ usizeMax) (ho : Owned h Z R) (hreach : Reach h R t.addr) (ht : t.Held h)
    (hv : t.Valid (k + 1)) (hk : k + 1 ≤ maxDepth) (hlen : t.length ≤ usizeMax) :
    wp (r.read n c) (fun q h' ↦ q.1.Continues t (r.readFrom c + n) q.2.1 ∧
      ReadsPart t (k + 1) (r.readFrom c) n h Z R q.2.2 h') h ↔ r.Serves t n c :=
  ⟨serves_of_wp hr hc hn hle ho hreach ht hv hk hlen, fun hok ↦
    wp_mono (wp_read hr hok hc hn hle ho hreach ht hv hk hlen) fun _ _ hq ↦ ⟨hq.2.1, hq.2.2.2⟩⟩

/-! ### Runs -/

/-- A run of a reader of `t` whose reads it serves. Between its steps other references to the heap may
be used in any way, as long as the tree is held. -/
inductive Run (t : Rep) : BtreeReader → Prop
  | init {r : BtreeReader} {chunk : Bytes} (hinit : init t = .ok (r, chunk)) : Run t r
  | next {r r' : BtreeReader} {chunk : Bytes} (hrun : Run t r)
      (hnext : r.next = .ok (r', chunk)) : Run t r'
  | seek {r r' : BtreeReader} {chunk : Bytes} {offset : ℕ} (hrun : Run t r)
      (hseek : r.seek offset = .ok (r', chunk)) : Run t r'
  | read {r r' : BtreeReader} {chunk : Bytes} {n c : ℕ} {tree : Option Addr}
      {h h' : Heap Node} {Z : List Addr} {R : Multiset Addr} (hrun : Run t r)
      (hc : ∀ e, r.navigator.current = .ok e → c ≤ e.length) (hn : 0 < n) (hle : n ≤ usizeMax)
      (hok : r.Serves t n c) (ho : Owned h Z R) (hreach : Reach h R t.addr) (ht : t.Held h)
      (hread : r.read n c h = .ok ((r', chunk, tree), h')) : Run t r'

private theorem Run.tracks (hrun : Run t r) (hv : t.Valid (k + 1)) (hk : k + 1 ≤ maxDepth)
    (hlen : t.length ≤ usizeMax) : r.Tracks t := by
  induction hrun with
  | init hinit =>
    obtain ⟨_, _, heq, htracks, -⟩ := init_continues hv (Nat.le_sub_of_add_le hk)
    cases hinit.symm.trans heq
    exact htracks
  | next _ hnext ih =>
    obtain ⟨_, _, heq, htracks, -⟩ := next_continues ih hv
    cases hnext.symm.trans heq
    exact htracks
  | seek _ hseek ih =>
    obtain ⟨_, _, heq, htracks, -⟩ := seek_continues _ ih hv
    cases hseek.symm.trans heq
    exact htracks
  | read _ hc hn hle hok ho hreach ht hread ih =>
    obtain ⟨_, _, heq, htracks, -⟩ := wp_read ih hok hc hn hle ho hreach ht hv hk hlen
    cases hread.symm.trans heq
    exact htracks

/-- A read at a position gives the part of the tree exactly if the end of its range does not wrap.
In a run of a reader whose reads it serves, every move is where the last one ended, or where it is
told to go, and so is a read, exactly if the reader serves it. -/
theorem read_continues (hv : t.Valid (k + 1)) (hk : k + 1 ≤ maxDepth) (hlen : t.length ≤ usizeMax) :
    (∀ {h Z R} {nav : Navigator} {e : Edge} {off n : ℕ}, Owned h Z R → Reach h R t.addr →
      t.Held h → nav.At t e → off < e.length → 0 < n → n ≤ usizeMax →
      (wp (nav.read off n) (fun q h' ↦ nav.Reads t (k + 1) off n h Z R q.1 q.2 h') h ↔
        off + n ≤ usizeMax)) ∧
    (∃ r chunk, init t = .ok (r, chunk) ∧ r.Continues t 0 chunk) ∧
    ∀ r, Run t r →
      (∃ r' chunk', r.next = .ok (r', chunk') ∧ r'.Continues t (t.length - r.remaining) chunk') ∧
      (∀ offset, ∃ r' chunk', r.seek offset = .ok (r', chunk') ∧ r'.Continues t offset chunk') ∧
      ∀ {h Z R} {n c : ℕ}, Owned h Z R → Reach h R t.addr → t.Held h → 0 < n → n ≤ usizeMax →
        (∀ e, r.navigator.current = .ok e → c ≤ e.length) →
        (wp (r.read n c) (fun q h' ↦ q.1.Continues t (r.readFrom c + n) q.2.1 ∧
          ReadsPart t (k + 1) (r.readFrom c) n h Z R q.2.2 h') h ↔ r.Serves t n c) := by
  refine ⟨?_, ?_, fun r hrun ↦ ?_⟩
  · intro h Z R nav e off n ho hr ht ha hoff hn hle
    refine ⟨fun hwp ↦ ?_, Navigator.reads_of_le ha ho hr ht hv hk hlen hoff hn⟩
    by_contra hadd
    exact Navigator.not_reads_of_lt ha hv hlen hoff hn hle (Nat.lt_of_not_le hadd) hwp
  · obtain ⟨r, chunk, hinit, -, hcont⟩ := init_continues hv (Nat.le_sub_of_add_le hk)
    exact ⟨r, chunk, hinit, hcont⟩
  · have htracks := hrun.tracks hv hk hlen
    refine ⟨?_, fun offset ↦ ?_, fun ho hreach ht hn hle hc ↦ ?_⟩
    · obtain ⟨r', chunk', hnext, -, hcont⟩ := next_continues htracks hv
      exact ⟨r', chunk', hnext, hcont⟩
    · obtain ⟨r', chunk', hseek, -, hcont⟩ := seek_continues offset htracks hv
      exact ⟨r', chunk', hseek, hcont⟩
    · exact wp_read_iff htracks hc hn hle ho hreach ht hv hk hlen

end BtreeReader

end Rules

/-- The navigator on one of the two flats. -/
def pairAt (index : ℕ) : Navigator :=
  ⟨[⟨⟨2, 3, 0, 0⟩, [.leaf (.whole 0 (.flat 6 [1, 2])), .leaf (.whole 1 (.flat 6 [3]))], index⟩]⟩

private theorem pairAt_at :
    letI : Target := ⟨64, .inr rfl⟩
    (pairAt 0).At pairTree (.whole 0 (.flat 6 [1, 2])) := by
  let _ : Target := ⟨64, .inr rfl⟩
  exact ⟨⟨⟨[], _, rfl, rfl⟩, rfl⟩, holding_sharedPair.valid⟩

theorem BtreeReader.read_continues_pair :
    letI : Target := ⟨64, .inr rfl⟩
    wp ((pairAt 0).read 1 2) (fun q h' ↦
      (pairAt 0).Reads pairTree 1 1 2 sharedPair [] {2, 2} q.1 q.2 h') sharedPair ∧
      wp (BtreeReader.read ⟨1, pairAt 0⟩ 2 1) (fun q h' ↦ q.1.Continues pairTree 3 q.2.1 ∧
        ReadsPart pairTree 1 1 2 sharedPair [] {2, 2} q.2.2 h') sharedPair := by
  let _ : Target := ⟨64, .inr rfl⟩
  have ht := holding_sharedPair
  have hreach : Reach sharedPair {2, 2} pairTree.addr := .root (Multiset.mem_cons_self _ _)
  have hserves : BtreeReader.Serves ⟨1, pairAt 0⟩ pairTree 2 1 := by
    refine ⟨⟨_, rfl⟩, fun _ e he ↦ ?_, fun h ↦ absurd h (by decide), .inl (by decide)⟩
    cases he
    decide
  obtain ⟨hnav, -, hrun⟩ := BtreeReader.read_continues (t := pairTree) (k := 0) ht.valid (by decide)
    (by decide)
  refine ⟨(hnav ht.owned hreach ht.held pairAt_at (by decide) (by decide) (by decide)).mpr
    (by decide), ?_⟩
  refine ((hrun ⟨1, pairAt 0⟩ (.init rfl)).2.2 (n := 2) (c := 1) ht.owned hreach ht.held
    (by decide) (by decide) fun e he ↦ ?_).mpr hserves
  cases he
  decide

/-- A range whose end wraps, and a reader behind the last byte of the tree. Both find bytes where
none are left. -/
theorem BtreeReader.read_behind_end :
    letI : Target := ⟨64, .inr rfl⟩
    ¬wp ((pairAt 0).read 1 usizeMax) (fun q h' ↦
      (pairAt 0).Reads pairTree 1 1 usizeMax sharedPair [] {2, 2} q.1 q.2 h') sharedPair ∧
      BtreeReader.Run pairTree ⟨0, pairAt 1⟩ ∧
      ¬wp (BtreeReader.read ⟨0, pairAt 1⟩ 1 0) (fun q h' ↦
        ReadsPart pairTree 1 3 1 sharedPair [] {2, 2} q.2.2 h') sharedPair := by
  let _ : Target := ⟨64, .inr rfl⟩
  refine ⟨?_, .next (show BtreeReader.Run pairTree ⟨1, pairAt 0⟩ from .init rfl) rfl, ?_⟩
  · exact Navigator.not_reads_of_lt pairAt_at holding_sharedPair.valid (by decide) (by decide)
      (by decide) le_rfl (by decide)
  · rintro ⟨q, h', hrun, hpart⟩
    have hsome : BtreeReader.read ⟨0, pairAt 1⟩ 1 0 sharedPair =
      .ok ((⟨0, (pairAt 1).ended⟩, [], some 3), _) := rfl
    cases hsome.symm.trans hrun
    cases hpart.none_iff.mpr (by decide)

end CordRs

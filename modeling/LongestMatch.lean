import LongestMatch.Proofs.Pattern.Grouping
import LongestMatch.Proofs.Saved.RoundTrip
import LongestMatch.Proofs.Determinize.Correspondence
import LongestMatch.Proofs.Determinize.Limit
import LongestMatch.Proofs.Saved.Determinized
import LongestMatch.Proofs.Saved.Canonical
import LongestMatch.Proofs.Fragment.ClassEdges
import LongestMatch.Proofs.Fragment.Copied
import LongestMatch.Proofs.RedBlack.Intervals
import LongestMatch.Proofs.Automaton.Agreement
import LongestMatch.Proofs.Parse.Stacks
import LongestMatch.Proofs.Arcs.Tree
import LongestMatch.Proofs.Determinize.Memo
import LongestMatch.Proofs.Pattern.Tiling

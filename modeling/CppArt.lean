import CppArt.Proof.CanonicalShape
import CppArt.Proof.PrefixShape
import CppArt.Proof.Compression
import CppArt.Proof.Copying
import CppArt.Proof.Links
import CppArt.Proof.EraseRange
import CppArt.Proof.KeyTransform
import CppArt.Proof.StringKey
import CppArt.Proof.Relational
import CppArt.Proof.Accounts
import CppArt.Proof.ValueCompare
import CppArt.Proof.Rejection
import CppArt.Proof.SplitMerge
import CppArt.Proof.PrefixMismatch
import CppArt.Proof.Unfailing
import CppArt.Proof.ByteMap
import CppArt.Proof.Failure
import CppArt.Proof.Shifts
import CppArt.Proof.Family
import CppArt.Proof.Interface
import CppArt.Proof.Space
import CppArt.Proof.Throwing
import CppArt.Proof.Agreement
import CppArt.Proof.Exchange
import CppArt.Proof.SortedMap
import CppArt.Proof.Stored
import CppArt.Proof.Rounds
import CppArt.Proof.SortedSet
import CppArt.Proof.Overwrite

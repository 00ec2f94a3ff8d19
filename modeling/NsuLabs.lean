import NsuLabs.HashMap.Proofs.FailedAllocations
import NsuLabs.Huffman.Proofs.TruncatedArchive
import NsuLabs.Calculator.Proofs.Associativity
import NsuLabs.CrackHash.Worker
import NsuLabs.CrackHash.Proofs.NoPartLost
import NsuLabs.CrackHash.Publisher
import NsuLabs.LoadBalancer.LoadBalancer
import NsuLabs.HttpProxy.Proofs.Serving
import NsuLabs.HttpProxy.Proofs.EntryLifecycle
import NsuLabs.HttpProxy.Proofs.ReferenceCounts
import NsuLabs.DB.Proofs.Exclusivity
import NsuLabs.DB.Proofs.Schedules
import NsuLabs.RedBlackTree.Proofs.Insertion
import NsuLabs.BTreeInsertion.Proofs.Insertion
import NsuLabs.AvlInsertion.AvlTree
import NsuLabs.Knapsack.KnapsackProblem
import NsuLabs.TopologicalSort.TopSort
import NsuLabs.ConvexHull.ConvexHull
import NsuLabs.SpanningTree.Proofs.Kruskal
import NsuLabs.ShortestPath.ShortestPath
import NsuLabs.FindSubstring.Proofs.KnuthMorrisPratt
import NsuLabs.FindSubstring.Proofs.PrintedPositions
import NsuLabs.DiningPhilosophers.Stepwise
import NsuLabs.SubstitutionCipher.Cipher
import NsuLabs.StackCalculator.Calculator
import NsuLabs.SocksProxy.Socks5
import NsuLabs.CircularBuffer.Proofs.BoundedList
import NsuLabs.GameOfLife.Universe
import NsuLabs.Tetris.Proofs.LevelOverflow
import NsuLabs.ICGPaint.BresenhamLine
import NsuLabs.CopyBackwards.CopyFile
import NsuLabs.QuickSort.QuickSort
import NsuLabs.HeapSort.HeapSort
import NsuLabs.NumericalSystemConverter.Converter
import NsuLabs.FileTransfer.SendFile
